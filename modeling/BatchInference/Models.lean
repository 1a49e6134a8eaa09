import Mathlib.Algebra.Ring.Nat
import BatchInference.Core.Spaces

/-!
# Rows and settings

The rows of one batch and of its chunks, and what surrounds the jobs: settings and the
parts of the runtime that the code does not define. A batch's columns that are written once,
by `create_batch`, are in `BatchSpec`, together with the prompts object it has put; the
others are the row `Batch`.

A session loads a row, changes attributes and flushes: the UPDATE names only the columns
whose value differs from the loaded one (`column`).
-/

namespace BatchInference

inductive BatchStatus where
  | pending | running | completed | failed | cancelled
  deriving DecidableEq, Repr

inductive ChunkStatus where
  | pending | leased | succeeded | failed
  deriving DecidableEq, Repr

inductive WebhookStatus where
  | pending | delivered | dead | none
  deriving DecidableEq, Repr

/-- `status in (completed, failed, cancelled)` -/
def BatchStatus.terminal : BatchStatus → Bool
  | .completed | .failed | .cancelled => true
  | .pending | .running => false

/-- A created batch. Its counts are `Integer` columns, and `create_batch` refuses an input
without a line. -/
structure BatchSpec where
  id : String
  totalItems : Nat
  chunkSize : Int
  webhookUrl : Option String
  prompts : Bytes
  one_le_totalItems : 1 ≤ totalItems
  totalItems_lt : totalItems < 2 ^ 31
  lines_prompts : (promptLines prompts).length = totalItems

structure Batch where
  status : BatchStatus := .pending
  completedItems : Nat := 0
  failedItems : Nat := 0
  retryCount : Nat := 0
  resultsKey : Option ObjectKey := none
  manifestKey : Option ObjectKey := none
  webhookStatus : WebhookStatus := .none
  webhookAttempts : Nat := 0
  error : Option String := none
  startedAt : Option Int := none
  completedAt : Option Int := none
  deriving DecidableEq, Repr

structure BatchChunk where
  chunkIndex : Nat
  offset : Int
  limit : Int
  status : ChunkStatus := .pending
  resultKey : Option ObjectKey := none
  attempts : Nat := 0
  leasedUntil : Option Int := none
  error : Option String := none
  okCount : Nat := 0
  failCount : Nat := 0
  deriving DecidableEq, Repr

/-- `reads` is how `body.read` hands over an object, `loads` is `json.loads` and `intOfStr`
is `int` on a string, with `none` for an exception. -/
structure Env where
  spec : BatchSpec
  chunkLeaseSeconds : Int
  chunkMaxAttempts : Int
  webhookMaxAttempts : Int
  reads : Bytes → List Bytes
  loads : String → Option Json
  intOfStr : String → Option Int
  flatten_reads : ∀ content, (reads content).flatten = content

/-! ## Flushing a changed row -/

def column {α : Type} [DecidableEq α] (loaded new current : α) : α :=
  if new = loaded then current else new

@[simp] theorem column_unchanged {α : Type} [DecidableEq α] (loaded current : α) :
    column loaded loaded current = current := by simp [column]

@[simp] theorem column_current {α : Type} [DecidableEq α] (loaded new : α) :
    column loaded new loaded = new := by
  unfold column; split_ifs with h <;> simp [h]

theorem column_eq_or {α : Type} [DecidableEq α] (loaded new current : α) :
    column loaded new current = current ∨ column loaded new current = new := by
  unfold column; split_ifs <;> simp

/-- A column that, once set to a value, stays so. -/
theorem column_set {α : Type} [DecidableEq α] {loaded new current : α}
    (h : loaded = new → current = new) : column loaded new current = new := by
  unfold column
  split
  · rename_i hl
    exact h hl.symm
  · rfl

theorem column_of_ne {α : Type} [DecidableEq α] {loaded new : α} (h : new ≠ loaded)
    (current : α) : column loaded new current = new := by simp [column, h]

def Batch.flush (loaded new current : Batch) : Batch where
  status := column loaded.status new.status current.status
  completedItems := column loaded.completedItems new.completedItems current.completedItems
  failedItems := column loaded.failedItems new.failedItems current.failedItems
  retryCount := column loaded.retryCount new.retryCount current.retryCount
  resultsKey := column loaded.resultsKey new.resultsKey current.resultsKey
  manifestKey := column loaded.manifestKey new.manifestKey current.manifestKey
  webhookStatus := column loaded.webhookStatus new.webhookStatus current.webhookStatus
  webhookAttempts := column loaded.webhookAttempts new.webhookAttempts current.webhookAttempts
  error := column loaded.error new.error current.error
  startedAt := column loaded.startedAt new.startedAt current.startedAt
  completedAt := column loaded.completedAt new.completedAt current.completedAt

def BatchChunk.flush (loaded new current : BatchChunk) : BatchChunk where
  chunkIndex := column loaded.chunkIndex new.chunkIndex current.chunkIndex
  offset := column loaded.offset new.offset current.offset
  limit := column loaded.limit new.limit current.limit
  status := column loaded.status new.status current.status
  resultKey := column loaded.resultKey new.resultKey current.resultKey
  attempts := column loaded.attempts new.attempts current.attempts
  leasedUntil := column loaded.leasedUntil new.leasedUntil current.leasedUntil
  error := column loaded.error new.error current.error
  okCount := column loaded.okCount new.okCount current.okCount
  failCount := column loaded.failCount new.failCount current.failCount

/-- Nobody wrote the row since the load: the flush stores the row as changed. -/
@[simp] theorem Batch.flush_current (loaded new : Batch) : loaded.flush new loaded = new := by
  simp [Batch.flush]

@[simp] theorem BatchChunk.flush_current (loaded new : BatchChunk) :
    loaded.flush new loaded = new := by
  simp [BatchChunk.flush]

end BatchInference
