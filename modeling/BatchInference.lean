import BatchInference.Library.JobPool
import BatchInference.Library.Solo
import BatchInference.Library.Semaphore
import BatchInference.Library.Lines
import BatchInference.Library.Machine
import BatchInference.Library.Rounding
import BatchInference.Core.Json
import BatchInference.Core.Spaces
import BatchInference.Core.Ingest
import BatchInference.Core.Reading
import BatchInference.Core.Uploads
import BatchInference.Core.Utf8
import BatchInference.Models
import BatchInference.RateLimit.Bucket
import BatchInference.RateLimit.Windows
import BatchInference.RateLimit.Shared
import BatchInference.RateLimit.Timestamps
import BatchInference.RateLimit.Pauses
import BatchInference.RateLimit.Hints
import BatchInference.RateLimit.Acquire
import BatchInference.RateLimit.Gate
import BatchInference.Services.Batches
import BatchInference.Services.Planning
import BatchInference.Services.CreateBatch
import BatchInference.Services.Routing
import BatchInference.Services.Webhooks
import BatchInference.Api.Routes
import BatchInference.Api.Idempotency
import BatchInference.Api.Runnable
import BatchInference.Providers.OpenAI
import BatchInference.Workers.RunOne
import BatchInference.Workers.Calls
import BatchInference.Workers.CallRate
import BatchInference.Workers.PlainText
import BatchInference.Workers.Transactions
import BatchInference.Api.Reads
import BatchInference.Workers.Torn
import BatchInference.Workers.Jobs
import BatchInference.Workers.Steps
import BatchInference.Workers.Changes
import BatchInference.Workers.Runs
import BatchInference.Workers.Invariant
import BatchInference.Workers.Completeness
import BatchInference.Workers.Status
import BatchInference.Workers.Atomic
import BatchInference.Workers.Progress
import BatchInference.Workers.Single
import BatchInference.Workers.Overlap
import BatchInference.Workers.Succeeded
import BatchInference.Workers.Lease
import BatchInference.Workers.Attempts
import BatchInference.Workers.Retries
import BatchInference.Workers.Released
import BatchInference.Workers.Represented
import BatchInference.Workers.Checkpoint
import BatchInference.Workers.Drivers
import BatchInference.Workers.Announced
import BatchInference.Workers.Indexes
import BatchInference.Workers.ItemRows
import BatchInference.Workers.ChunkPhases
import BatchInference.Workers.Isolation
import BatchInference.Workers.Deliveries
import BatchInference.Workers.RetryChain
import BatchInference.Workers.Polling
import BatchInference.Workers.InForce
import BatchInference.Providers.Mock
import BatchInference.Workers.Determined
import BatchInference.Workers.Tallies
import BatchInference.Workers.Rescue
import BatchInference.Workers.Quiescence
import BatchInference.Workers.Published
import BatchInference.Workers.Payloads
import BatchInference.RateLimit.Tenants
import BatchInference.Workers.Lifecycle
import BatchInference.Workers.Cancelled
import BatchInference.Workers.Deployment
import BatchInference.Api.Handover
