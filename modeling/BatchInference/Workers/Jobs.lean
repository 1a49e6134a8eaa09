import BatchInference.Library.Rounding
import BatchInference.Workers.Transactions

/-!
# The jobs, statement by statement

Each job is a program counter with the locals that it still needs; a step goes to the next
statement of the database, call of the object store or `enqueue_job`. The two kinds of call
a job cannot see the end of, a provider's replies and a webhook's delivery, are chosen by the
environment, and so are exceptions, crashes and timeouts.
-/

namespace BatchInference

inductive Event where
  | completed | failed
  deriving DecidableEq, Repr

/-- What the queue holds, with `_defer_by` (0 for none). The cron job and the API's cancel
call start in the same way. -/
inductive Job where
  | orchestrateBatch
  | processChunk (chunkIndex deferBy : Nat)
  | checkBatchCompletion (deferBy : Nat)
  | finalizeBatch
  | deliverBatchWebhook (event : Event) (deferBy : Nat)
  | reclaimLeasesCron
  | cancelBatch
  deriving DecidableEq, Repr

/-- One step: what the job goes on as (`none` when it returns), and its effects. -/
structure Effect (κ : Type) where
  next : Option κ
  commit : Option Commit := none
  put : Option Put := none
  jobs : List Job := []

def Effect.map {κ κ' : Type} (f : κ → κ') (e : Effect κ) : Effect κ' :=
  { e with next := e.next.map f }

/-- The job returns. -/
def Effect.done {κ : Type} : Effect κ := { next := none }

/-- A statement that writes nothing yet. -/
def Effect.goto {κ : Type} (pc : κ) : Effect κ := { next := some pc }

namespace Effect

variable {κ κ' : Type}

@[simp] theorem next_map (f : κ → κ') (e : Effect κ) : (e.map f).next = e.next.map f := rfl

@[simp] theorem commit_map (f : κ → κ') (e : Effect κ) : (e.map f).commit = e.commit := rfl

@[simp] theorem put_map (f : κ → κ') (e : Effect κ) : (e.map f).put = e.put := rfl

@[simp] theorem jobs_map (f : κ → κ') (e : Effect κ) : (e.map f).jobs = e.jobs := rfl

@[simp] theorem next_goto (pc : κ) : (goto pc).next = some pc := rfl

@[simp] theorem jobs_goto (pc : κ) : (goto pc).jobs = [] := rfl

end Effect

/-- A batch row that a job's first guard has let pass. -/
structure OpenBatch where
  row : Batch
  not_terminal : row.status.terminal = false

/-! ## orchestrate_batch -/

namespace Orchestrate

/-- `startedAt` is the clock when the row was loaded, `fresh` says that this job has added
the rows. -/
inductive Pc where
  | gotBatch (loaded : OpenBatch) (startedAt : Int)
  | planned (loaded : OpenBatch) (startedAt : Int) (rows : List BatchChunk) (fresh : Bool)
  | reclaimed (loaded : OpenBatch) (startedAt : Int) (rows : List BatchChunk) (fresh : Bool)
      (now : Int)
  | enqueueing (chunkIds : List Nat)

def run (startedAt : Int) (batch : Batch) : Batch :=
  { batch with status := .running, startedAt := batch.startedAt.or (some startedAt) }

def start (s : Shared) : Effect Pc :=
  if h : s.db.batch.status.terminal then .done
  else .goto (.gotBatch ⟨s.db.batch, by simpa using h⟩ s.now)

def step (env : Env) (s : Shared) : Pc → Effect Pc
  | .gotBatch loaded startedAt =>
    match createChunkRows env.spec s.db.chunks with
    | .error _ => .done
    | .ok rows => .goto (.planned loaded startedAt rows (s.db.chunks = []))
  | .planned loaded startedAt rows fresh =>
    .goto (.reclaimed loaded startedAt rows fresh s.now)
  | .reclaimed loaded startedAt rows fresh now =>
    -- `uq_batch_chunk_index` refuses the rows when another job has inserted its own
    if fresh ∧ s.db.chunks ≠ [] then .done
    else
      { next := some <| .enqueueing <|
          (rows.filter fun c => c.status ≠ .succeeded).map (·.chunkIndex)
        commit := some <| .orchestrate loaded.row (run startedAt loaded.row)
          (if fresh then rows else []) now }
  | .enqueueing (i :: chunkIds) =>
    { next := some (.enqueueing chunkIds), jobs := [.processChunk i 0] }
  | .enqueueing [] => { next := none, jobs := [.checkBatchCompletion 2] }

end Orchestrate

/-! ## process_chunk -/

namespace ProcessChunk

/-- Inside `try`. While the items are gathered, `seen` has the status of the batch that the
session of each item has read, and `outcomes` what its `run_one` has returned. -/
inductive Body where
  | reading
  | gathering (items : List Json) (seen : List (Option BatchStatus))
      (outcomes : List (Option Outcome))
  | cancelling
  | cancelLoaded (row : BatchChunk)
  | writing (results : List Outcome)
  | written (ok fail : Nat)
  | loaded (row : BatchChunk) (ok fail : Nat)
  | flushed (row : BatchChunk) (ok fail : Nat)
  | recomputed (row : BatchChunk) (ok fail : Nat) (counters : Counters)
  | succeeded

/-- Inside `except Exception`. -/
inductive Handler where
  | failing
  | loadedChunk (row : BatchChunk)
  | loadedBatch (row : BatchChunk) (batch : Batch)
  | announceFailed
  | reEnqueue

/-- `chunk` is the row as `_lease_chunk` returned it. -/
inductive Pc where
  | gotBatch
  | leased (loaded : BatchChunk) (now : Int)
  | body (chunk : BatchChunk) (pc : Body)
  | handler (chunk : BatchChunk) (exc : String) (pc : Handler)

def start (s : Shared) : Effect Pc :=
  if s.db.batch.status.terminal then .done else .goto .gotBatch

/-- What follows `gather`. -/
def afterGather (outcomes : List Outcome) : Body :=
  if outcomes.any (·.isCancelled) then .cancelling else .writing (sortResults outcomes)

/-- `none` is a call that raises or has not returned. -/
def Body.step (env : Env) (s : Shared) (i : Nat) (chunk : BatchChunk) :
    Body → Option (Effect Body)
  | .reading => do
    let items ← readLineRange env.loads (env.reads env.spec.prompts) chunk.offset chunk.limit
    return .goto <|
      .gathering items (List.replicate items.length none) (List.replicate items.length none)
  | .gathering _ _ outcomes => do
    let outcomes ← outcomes.mapM id
    return .goto (afterGather outcomes)
  | .cancelling => some <| match s.db.chunks[i]? with
    | none => .done
    | some row => .goto (.cancelLoaded row)
  | .cancelLoaded row => some
    { next := none, commit := some (.cancelRelease i row row.cancelRelease) }
  | .writing results => some
    { next := some (.written (okCount results) (failCount results))
      put := some (.rows (.chunk i) results) }
  | .written ok fail => some <| match s.db.chunks[i]? with
    | none => .done
    | some row => .goto (.loaded row ok fail)
  | .loaded row ok fail => some (.goto (.flushed row ok fail))
  | .flushed row ok fail => some <| .goto <| .recomputed row ok fail <|
      -- its snapshot is what is committed, with the row that this transaction has flushed
      recomputeBatchCounters (s.db.chunks.modify i (row.flush (row.succeed i ok fail)))
  | .recomputed row ok fail counters => some
    { next := some .succeeded
      commit := some (.success i row (row.succeed i ok fail) counters) }
  | .succeeded => some { next := none, jobs := [.checkBatchCompletion 0] }

/-- A `run_one` of the gather begins: its own session reads the batch's status. -/
def Body.look (s : Shared) (item : Nat) : Body → Option (Effect Body)
  | .gathering items seen outcomes => match seen[item]? with
    | some none =>
      some (.goto (.gathering items (seen.set item (some s.db.batch.status)) outcomes))
    | _ => none
  | _ => none

/-- A `run_one` of the gather ends, whatever has become of the batch since it began. -/
def Body.reply (env : Env) (chunk : BatchChunk) (item : Nat) (replies : List InferenceResult) :
    Body → Option (Effect Body)
  | .gathering items seen outcomes =>
    match items[item]?, seen[item]?, outcomes[item]? with
    | some value, some (some status), some none => do
      let outcome ← runOne env.intOfStr chunk.offset status value replies
      return .goto (.gathering items seen (outcomes.set item (some outcome)))
    | _, _, _ => none
  | _ => none

/-- The batch's part of the failure handler. -/
def failBatch (now : Int) (i : Nat) (exc : String) (batch : Batch) : Batch :=
  { batch with
    status := .failed
    error := some s!"chunk {i} exhausted retries: {exc}"
    completedAt := some now }

def Handler.step (env : Env) (s : Shared) (i : Nat) (exc : String) :
    Handler → Effect Handler
  | .failing => match s.db.chunks[i]? with
    | none => .done
    | some row => .goto (.loadedChunk row)
  | .loadedChunk row => .goto (.loadedBatch row s.db.batch)
  | .loadedBatch row batch =>
    if env.chunkMaxAttempts ≤ row.attempts then
      if batch.status = .running then
        { next := some .announceFailed
          commit := some <|
            .failure i row (row.fail env exc) batch (failBatch s.now i exc batch) }
      else
        -- the session closes without a commit
        .done
    else
      { next := some .reEnqueue
        commit := some (.failure i row (row.fail env exc) batch batch) }
  | .announceFailed => { next := none, jobs := [.deliverBatchWebhook .failed 0] }
  | .reEnqueue => { next := none, jobs := [.processChunk i 2] }

def step (env : Env) (s : Shared) (i : Nat) : Pc → Option (Effect Pc)
  | .gotBatch => some <| match s.db.chunks[i]? with
    | none => .done
    | some loaded =>
      if loaded.refused env s.now then .done else .goto (.leased loaded s.now)
  | .leased loaded now => some
    { next := some (.body (loaded.lease env now) .reading)
      commit := some (.lease i loaded (loaded.lease env now)) }
  | .body chunk pc => (pc.step env s i chunk).map (·.map (.body chunk))
  | .handler chunk exc pc => some ((pc.step env s i exc).map (.handler chunk exc))

def look (s : Shared) (item : Nat) : Pc → Option (Effect Pc)
  | .body chunk pc => (pc.look s item).map (·.map (.body chunk))
  | _ => none

def reply (env : Env) (item : Nat) (replies : List InferenceResult) : Pc → Option (Effect Pc)
  | .body chunk pc => (pc.reply env chunk item replies).map (·.map (.body chunk))
  | _ => none

end ProcessChunk

/-! ## check_batch_completion -/

namespace CheckCompletion

inductive Pc where
  | gotBatch (loaded : OpenBatch)
  | reclaimed (loaded : OpenBatch) (now : Int)
  | counted (loaded : OpenBatch) (now : Int) (counts : StatusCounts)
  | announceFailed
  | enqueueFinalize
  | selectPending
  | requeueing (unleased : List (Nat × BatchChunk)) (todo : List BatchChunk)
  | repoll

def start (s : Shared) : Effect Pc :=
  if h : s.db.batch.status.terminal then .done
  else .goto (.gotBatch ⟨s.db.batch, by simpa using h⟩)

/-- The row of a batch that the check fails. -/
def failBatch (now : Int) (failed : Nat) (batch : Batch) : Batch :=
  { batch with
    status := .failed
    error := some ((batch.error.filter (· ≠ "")).getD s!"{failed} chunk(s) failed")
    completedAt := some now }

/-- The WHERE clause of the chunks that are enqueued again. -/
def lost (now : Int) (chunk : BatchChunk) : Bool :=
  chunk.status = .pending || chunk.expired now

def step (s : Shared) : Pc → Effect Pc
  | .gotBatch loaded => .goto (.reclaimed loaded s.now)
  | .reclaimed loaded now =>
    .goto (.counted loaded now (countByStatus (reclaimExpiredLeases now s.db.chunks)))
  | .counted loaded now counts =>
    if counts.exhausted then
      { next := some .announceFailed
        commit := some (.check loaded.row (failBatch s.now counts.failed loaded.row) now) }
    else if counts.allSucceeded then
      { next := some .enqueueFinalize, commit := some (.check loaded.row loaded.row now) }
    else
      { next := if 0 < counts.pendingish then some .selectPending else none
        commit := some (.check loaded.row loaded.row now) }
  | .announceFailed => { next := none, jobs := [.deliverBatchWebhook .failed 0] }
  | .enqueueFinalize => { next := none, jobs := [.finalizeBatch] }
  | .selectPending => .goto (.requeueing [] (s.db.chunks.filter (lost s.now)))
  | .requeueing unleased (c :: todo) =>
    { next := some <| .requeueing
        (if c.status = .leased then unleased ++ [(c.chunkIndex, c)] else unleased) todo
      jobs := [.processChunk c.chunkIndex 0] }
  | .requeueing unleased [] => { next := some .repoll, commit := some (.requeue unleased) }
  | .repoll => { next := none, jobs := [.checkBatchCompletion 5] }

end CheckCompletion

/-! ## finalize_batch -/

namespace Finalize

/-- The batch row and the chunk rows that both guards have let pass. -/
structure Snapshot where
  batch : Batch
  rows : List BatchChunk
  unfinished : ¬ (batch.status = .completed ∨ batch.status = .cancelled)
  complete : ¬ (rows = [] ∨ ∃ c ∈ rows, c.status ≠ .succeeded)

inductive Pc where
  | gotBatch (loaded : Batch)
      (unfinished : ¬ (loaded.status = .completed ∨ loaded.status = .cancelled))
  | incomplete
  | gathering (snap : Snapshot) (keys : List ObjectKey) (parts : List (List Outcome))
  | concatenated (snap : Snapshot)
  | committing (snap : Snapshot)
  | announce

def start (s : Shared) : Effect Pc :=
  if h : s.db.batch.status = .completed ∨ s.db.batch.status = .cancelled then .done
  else .goto (.gotBatch s.db.batch h)

def complete (now : Int) (batch : Batch) : Batch :=
  { batch with
    resultsKey := some .results
    manifestKey := some .manifest
    status := .completed
    completedAt := some now }

def manifestOf (env : Env) (batch : Batch) (rows : List BatchChunk) : Manifest where
  batchId := env.spec.id
  totalItems := env.spec.totalItems
  completedItems := batch.completedItems
  failedItems := batch.failedItems
  retryCount := batch.retryCount
  chunks := rows.map fun c =>
    { chunkIndex := c.chunkIndex
      resultKey := c.resultKey
      okCount := c.okCount
      failCount := c.failCount
      attempts := c.attempts }
  resultsKey := .results

/-- `none` is a get that raises. -/
def step (env : Env) (s : Shared) : Pc → Option (Effect Pc)
  | .gotBatch loaded unfinished =>
    if h : s.db.chunks = [] ∨ ∃ c ∈ s.db.chunks, c.status ≠ .succeeded then
      some (.goto .incomplete)
    else
      some <| .goto <| .gathering ⟨loaded, s.db.chunks, unfinished, h⟩
        (s.db.chunks.filterMap (·.resultKey)) []
  | .incomplete => some { next := none, jobs := [.checkBatchCompletion 2] }
  | .gathering snap (key :: keys) parts => do
    let part ← s.store.rows key
    return .goto (.gathering snap keys (parts ++ [part]))
  | .gathering snap [] parts => some
    { next := some (.concatenated snap), put := some (.rows .results parts.flatten) }
  | .concatenated snap => some
    { next := some (.committing snap)
      put := some (.manifest (manifestOf env snap.batch snap.rows)) }
  | .committing snap => some
    { next := some .announce
      commit := some (.finalize snap.batch (complete s.now snap.batch)) }
  | .announce => some { next := none, jobs := [.deliverBatchWebhook .completed 0] }

end Finalize

/-! ## deliver_batch_webhook -/

namespace DeliverWebhook

inductive Pc where
  | posting (loaded : Batch)
  | posted (loaded : Batch) (ok : Bool)
  | backingOff (attempts : Nat)

def start (env : Env) (s : Shared) : Effect Pc :=
  if env.spec.webhookUrl.all (· = "") then .done else .goto (.posting s.db.batch)

/-- The attempt that fails the delivery for good. -/
def exhausted (env : Env) (batch : Batch) : Bool :=
  env.webhookMaxAttempts ≤ batch.webhookAttempts + 1

def attempt (env : Env) (ok : Bool) (batch : Batch) : Batch :=
  { batch with
    webhookAttempts := batch.webhookAttempts + 1
    webhookStatus :=
      if ok then .delivered else if exhausted env batch then .dead else batch.webhookStatus }

/-- `deliver_webhook` returns. -/
def posted (ok : Bool) : Pc → Option (Effect Pc)
  | .posting loaded => some (.goto (.posted loaded ok))
  | _ => none

def step (env : Env) : Pc → Option (Effect Pc)
  | .posted loaded ok => some
    { next := if ok || exhausted env loaded then none
        else some (.backingOff (attempt env ok loaded).webhookAttempts)
      commit := some (.webhook loaded (attempt env ok loaded)) }
  | _ => none

/-- The upper end of the draw of `webhook_backoff_seconds`. -/
def backoffCap (attempts : Nat) : Nat := min (2 ^ (attempts - 1)) 300

/-- `max(1, int(round(delay)))` -/
def deferBy (delay : ℚ) : Nat := max 1 (Rounding.roundHalfEven delay).toNat

def backoff (event : Event) (delay : ℚ) : Pc → Option (Effect Pc)
  | .backingOff attempts =>
    if 0 ≤ delay ∧ delay ≤ backoffCap attempts then
      some { next := none, jobs := [.deliverBatchWebhook event (deferBy delay)] }
    else none
  | _ => none

end DeliverWebhook

/-! ## All jobs -/

/-- A job in the queue or under way. -/
inductive Frame where
  | queued (job : Job)
  | orchestrateBatch (pc : Orchestrate.Pc)
  | processChunk (chunkIndex deferBy : Nat) (pc : ProcessChunk.Pc)
  | checkBatchCompletion (deferBy : Nat) (pc : CheckCompletion.Pc)
  | finalizeBatch (pc : Finalize.Pc)
  | deliverBatchWebhook (event : Event) (deferBy : Nat) (pc : DeliverWebhook.Pc)
  | cancelBatch (loaded : Batch)

inductive Choice where
  | next
  | look (item : Nat)
  | reply (item : Nat) (replies : List InferenceResult)
  | posted (ok : Bool)
  | backoff (delay : ℚ)
  | raise (exc : String)
  | crash
  | timeout

namespace Frame

/-- A worker takes the job up and runs its first statement. -/
def start (env : Env) (s : Shared) : Job → Effect Frame
  | .orchestrateBatch => (Orchestrate.start s).map .orchestrateBatch
  | .processChunk i deferBy => (ProcessChunk.start s).map (.processChunk i deferBy)
  | .checkBatchCompletion deferBy =>
    (CheckCompletion.start s).map (.checkBatchCompletion deferBy)
  | .finalizeBatch => (Finalize.start s).map .finalizeBatch
  | .deliverBatchWebhook event deferBy =>
    (DeliverWebhook.start env s).map (.deliverBatchWebhook event deferBy)
  | .reclaimLeasesCron => { next := none, commit := some (.reclaim s.now) }
  | .cancelBatch => .goto (.cancelBatch s.db.batch)

def next (env : Env) (s : Shared) : Frame → Option (Effect Frame)
  | .queued job => some (start env s job)
  | .orchestrateBatch pc => some ((Orchestrate.step env s pc).map .orchestrateBatch)
  | .processChunk i deferBy pc =>
    (ProcessChunk.step env s i pc).map (·.map (.processChunk i deferBy))
  | .checkBatchCompletion deferBy pc =>
    some ((CheckCompletion.step s pc).map (.checkBatchCompletion deferBy))
  | .finalizeBatch pc => (Finalize.step env s pc).map (·.map .finalizeBatch)
  | .deliverBatchWebhook event deferBy pc =>
    (DeliverWebhook.step env pc).map (·.map (.deliverBatchWebhook event deferBy))
  | .cancelBatch loaded =>
    some { next := none, commit := some (.cancel loaded (BatchInference.cancelBatch s.now loaded)) }

/-- What is left of a job that raises: a body goes on in its handler. -/
def raised (exc : String) : Frame → Option Frame
  | .processChunk i deferBy (.body chunk _) =>
    some (.processChunk i deferBy (.handler chunk exc .failing))
  | _ => none

/-- What is left of a job whose worker dies: the queue runs it again, but not an API call. -/
def crashed : Frame → Option Frame
  | .queued job => some (.queued job)
  | .orchestrateBatch _ => some (.queued .orchestrateBatch)
  | .processChunk i deferBy _ => some (.queued (.processChunk i deferBy))
  | .checkBatchCompletion deferBy _ => some (.queued (.checkBatchCompletion deferBy))
  | .finalizeBatch _ => some (.queued .finalizeBatch)
  | .deliverBatchWebhook event deferBy _ => some (.queued (.deliverBatchWebhook event deferBy))
  | .cancelBatch _ => none

def step (env : Env) (s : Shared) (frame : Frame) : Choice → Option (Effect Frame)
  | .next => frame.next env s
  | .look item => match frame with
    | .processChunk i deferBy pc =>
      (ProcessChunk.look s item pc).map (·.map (.processChunk i deferBy))
    | _ => none
  | .reply item replies => match frame with
    | .processChunk i deferBy pc =>
      (ProcessChunk.reply env item replies pc).map (·.map (.processChunk i deferBy))
    | _ => none
  | .posted ok => match frame with
    | .deliverBatchWebhook event deferBy pc =>
      (DeliverWebhook.posted ok pc).map (·.map (.deliverBatchWebhook event deferBy))
    | _ => none
  | .backoff delay => match frame with
    | .deliverBatchWebhook event deferBy pc =>
      (DeliverWebhook.backoff event delay pc).map (·.map (.deliverBatchWebhook event deferBy))
    | _ => none
  | .raise exc => some { next := frame.raised exc }
  | .crash => some { next := frame.crashed }
  | .timeout => some .done

end Frame

end BatchInference
