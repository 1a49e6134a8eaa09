import BatchInference.Services.Batches
import BatchInference.Workers.RunOne

/-!
# What jobs read and write

Row functions of the jobs, the two stores, and the transactions as data: a `Commit` is what
one transaction writes, with the rows as it loaded them, and a `Put` is one object. The
database holds one batch; nothing deletes it, and other batches touch its chunks only
through the reclaim query.

Row locks make a second writer of a row wait until the first one commits. A write that does
not read the row again may thus be taken to happen at its commit, and this is what
`Commit.apply` does.
-/

namespace BatchInference

/-! ## Row functions -/

namespace BatchChunk

/-- The WHERE clause of `reclaim_expired_leases`. -/
def expired (now : Int) (chunk : BatchChunk) : Bool :=
  chunk.status = .leased && chunk.leasedUntil.any (· < now)

def unlease (chunk : BatchChunk) : BatchChunk :=
  { chunk with status := .pending, leasedUntil := none }

def reclaim (now : Int) (chunk : BatchChunk) : BatchChunk :=
  if chunk.expired now then chunk.unlease else chunk

/-- What `_lease_chunk` refuses. -/
def refused (env : Env) (now : Int) (chunk : BatchChunk) : Bool :=
  chunk.status = .succeeded ||
  (env.chunkMaxAttempts ≤ chunk.attempts && chunk.status = .failed) ||
  (chunk.status = .leased && chunk.leasedUntil.any (now < ·))

/-- What `_lease_chunk` makes of a row that it does not refuse. -/
def lease (env : Env) (now : Int) (chunk : BatchChunk) : BatchChunk :=
  { chunk with
    status := .leased
    leasedUntil := some (now + env.chunkLeaseSeconds)
    attempts := chunk.attempts + 1 }

def cancelRelease (chunk : BatchChunk) : BatchChunk :=
  { chunk with status := .pending, leasedUntil := none, error := some "cancelled" }

def succeed (chunkIndex okCount failCount : Nat) (chunk : BatchChunk) : BatchChunk :=
  { chunk with
    status := .succeeded
    resultKey := some (.chunk chunkIndex)
    okCount := okCount
    failCount := failCount
    leasedUntil := none
    error := none }

/-- `str(exc)[:2000]` -/
def errorText (exc : String) : String := String.ofList (exc.toList.take 2000)

/-- The chunk's part of the failure handler. -/
def fail (env : Env) (exc : String) (chunk : BatchChunk) : BatchChunk :=
  { chunk with
    error := some (errorText exc)
    leasedUntil := none
    status := if env.chunkMaxAttempts ≤ chunk.attempts then .failed else .pending }

theorem status_fail_ne (env : Env) (exc : String) (chunk : BatchChunk) :
    (chunk.fail env exc).status ≠ .succeeded := by
  simp only [fail]
  split <;> simp

def counts (chunk : BatchChunk) : Nat × Nat := (chunk.okCount, chunk.failCount)

/-- The columns that are written once. -/
def place (chunk : BatchChunk) : Nat × Int × Int := (chunk.chunkIndex, chunk.offset, chunk.limit)

theorem place_flush {loaded new : BatchChunk} (h : new.place = loaded.place)
    (row : BatchChunk) : (loaded.flush new row).place = row.place := by
  simp only [place, Prod.mk.injEq] at h ⊢
  simp [flush, h]

@[simp] theorem place_reclaim (now : Int) (chunk : BatchChunk) :
    (chunk.reclaim now).place = chunk.place := by
  unfold reclaim
  split <;> rfl

theorem reclaim_of_ne {now : Int} {chunk : BatchChunk} (h : chunk.status ≠ .leased) :
    chunk.reclaim now = chunk := by
  simp [reclaim, expired, h]

theorem reclaim_eq_or (now : Int) (chunk : BatchChunk) :
    chunk.reclaim now = chunk ∨ chunk.status = .leased ∧ chunk.reclaim now = chunk.unlease := by
  unfold reclaim
  split
  · rename_i h
    simp only [expired, Bool.and_eq_true, decide_eq_true_eq] at h
    exact .inr ⟨h.1, rfl⟩
  · exact .inl rfl

end BatchChunk

/-- `reclaim_expired_leases` -/
def reclaimExpiredLeases (now : Int) (chunks : List BatchChunk) : List BatchChunk :=
  chunks.map (·.reclaim now)

structure Counters where
  completedItems : Nat
  failedItems : Nat
  retryCount : Nat
  deriving DecidableEq, Repr

/-- The three subqueries of `_recompute_batch_counters`. -/
def recomputeBatchCounters (chunks : List BatchChunk) : Counters :=
  let succeeded := chunks.filter fun c => c.status = .succeeded
  { completedItems := (succeeded.map fun c => c.okCount + c.failCount).sum
    failedItems := (succeeded.map fun c => c.failCount).sum
    retryCount := (chunks.map fun c => if 1 < c.attempts then c.attempts - 1 else 0).sum }

/-- `by_status` of `check_batch_completion` -/
structure StatusCounts where
  pending : Nat
  leased : Nat
  succeeded : Nat
  failed : Nat
  deriving DecidableEq, Repr

def countByStatus (chunks : List BatchChunk) : StatusCounts where
  pending := chunks.countP fun c => c.status = .pending
  leased := chunks.countP fun c => c.status = .leased
  succeeded := chunks.countP fun c => c.status = .succeeded
  failed := chunks.countP fun c => c.status = .failed

namespace StatusCounts

def total (n : StatusCounts) : Nat := n.pending + n.leased + n.succeeded + n.failed

def pendingish (n : StatusCounts) : Nat := n.pending + n.leased

/-- The guard of the branch that fails the batch. -/
def exhausted (n : StatusCounts) : Bool :=
  0 < n.failed && n.pendingish = 0 && n.succeeded + n.failed = n.total

def allSucceeded (n : StatusCounts) : Bool := n.succeeded = n.total && 0 < n.total

end StatusCounts

/-! ## The two stores -/

/-- The rows of the batch and of its chunks, these in the order of `chunk_index`. A chunk's
position stands for its id. -/
structure Db where
  batch : Batch
  chunks : List BatchChunk
  deriving DecidableEq, Repr

structure ManifestEntry where
  chunkIndex : Nat
  resultKey : Option ObjectKey
  okCount : Nat
  failCount : Nat
  attempts : Nat
  deriving DecidableEq, Repr

structure Manifest where
  batchId : String
  totalItems : Nat
  completedItems : Nat
  failedItems : Nat
  retryCount : Nat
  chunks : List ManifestEntry
  resultsKey : ObjectKey
  deriving DecidableEq, Repr

def ManifestEntry.counts (entry : ManifestEntry) : Nat × Nat := (entry.okCount, entry.failCount)

/-- The objects that jobs write. A results object is kept as its rows; `body` is its bytes. -/
structure Store where
  rows : ObjectKey → Option (List Outcome)
  manifest : Option Manifest

def Store.empty : Store := ⟨fun _ => none, none⟩

def bodyOf (rows : List Outcome) : Bytes := writeChunkResults (rows.map Outcome.toJson)

def Store.body (store : Store) (key : ObjectKey) : Option Bytes := (store.rows key).map bodyOf

/-- What `concatenate_chunks` puts is the body of the concatenated rows. -/
theorem concatenateChunks_bodyOf (parts : List (List Outcome)) :
    concatenateChunks (parts.map bodyOf) = bodyOf parts.flatten := by
  have := concatenateChunks_writeChunkResults (parts.map (List.map Outcome.toJson))
  rwa [List.map_map, ← List.map_flatten] at this

structure Shared where
  db : Db
  store : Store
  now : Int

/-! ## Transactions -/

/-- The write set of a transaction: the rows as loaded and as changed, and the values that
its UPDATE statements have fixed. -/
inductive Commit where
  | orchestrate (loaded new : Batch) (inserted : List BatchChunk) (now : Int)
  | lease (chunkIndex : Nat) (loaded new : BatchChunk)
  | cancelRelease (chunkIndex : Nat) (loaded new : BatchChunk)
  | success (chunkIndex : Nat) (loaded new : BatchChunk) (counters : Counters)
  | failure (chunkIndex : Nat) (loaded new : BatchChunk) (batch batch' : Batch)
  | check (loaded new : Batch) (now : Int)
  | requeue (unleased : List (Nat × BatchChunk))
  | finalize (loaded new : Batch)
  | webhook (loaded new : Batch)
  | reclaim (now : Int)
  | cancel (loaded new : Batch)
  deriving DecidableEq, Repr

namespace Commit

def onBatch (batch : Batch) : Commit → Batch
  | orchestrate loaded new _ _ | check loaded new _ | finalize loaded new
  | webhook loaded new | cancel loaded new | failure _ _ _ loaded new => loaded.flush new batch
  | lease _ _ new =>
    if 1 < new.attempts then { batch with retryCount := batch.retryCount + 1 } else batch
  | success _ _ _ n =>
    { batch with
      completedItems := n.completedItems
      failedItems := n.failedItems
      retryCount := n.retryCount }
  | cancelRelease .. | requeue _ | reclaim _ => batch

/-- The chunk that the transaction leases. -/
def leases : Commit → Option Nat
  | lease i _ _ => some i
  | _ => none

/-- The chunk that its worker gives back, cancelled or in the failure handler. -/
def releases : Commit → Option Nat
  | cancelRelease i _ _ | failure i _ _ _ _ => some i
  | _ => none

def inserted : Commit → List BatchChunk
  | orchestrate _ _ rows _ => rows
  | _ => []

/-- On the row with id `i`. -/
def onRow (i : Nat) (row : BatchChunk) : Commit → BatchChunk
  | orchestrate _ _ _ now | check _ _ now | reclaim now => row.reclaim now
  | lease j loaded new | cancelRelease j loaded new | success j loaded new _
  | failure j loaded new _ _ => if j = i then loaded.flush new row else row
  | requeue unleased => match unleased.lookup i with
    | some loaded => loaded.flush loaded.unlease row
    | none => row
  | finalize .. | webhook .. | cancel .. => row

def apply (db : Db) (commit : Commit) : Db where
  batch := commit.onBatch db.batch
  chunks := (db.chunks ++ commit.inserted).mapIdx fun i row => commit.onRow i row

@[simp] theorem batch_apply (db : Db) (commit : Commit) :
    (commit.apply db).batch = commit.onBatch db.batch := rfl

theorem getElem?_chunks_apply (db : Db) (commit : Commit) (i : Nat) :
    (commit.apply db).chunks[i]? =
      ((db.chunks ++ commit.inserted)[i]?).map fun row => commit.onRow i row := by
  simp [apply]

theorem getElem?_apply_of_row {db : Db} {i : Nat} {row : BatchChunk}
    (h : db.chunks[i]? = some row) (commit : Commit) :
    (commit.apply db).chunks[i]? = some (commit.onRow i row) := by
  have hi := (List.getElem?_eq_some_iff.mp h).1
  rw [getElem?_chunks_apply, List.getElem?_append_left hi, h, Option.map_some]

/-- What a commit changes in no row, it changes in none of the list. -/
theorem map_chunks_apply {α : Type} {g : BatchChunk → α} {db : Db} {commit : Commit}
    (hins : commit.inserted = [])
    (hg : ∀ (i : Nat) (row : BatchChunk), db.chunks[i]? = some row →
      g (commit.onRow i row) = g row) :
    (commit.apply db).chunks.map g = db.chunks.map g := by
  refine List.ext_getElem? fun i => ?_
  rw [List.getElem?_map, List.getElem?_map, getElem?_chunks_apply, hins, List.append_nil]
  cases hrow : db.chunks[i]? with
  | none => rfl
  | some row => simp [hg i row hrow]

end Commit

inductive Put where
  | rows (key : ObjectKey) (content : List Outcome)
  | manifest (manifest : Manifest)

def Put.apply (store : Store) : Put → Store
  | .rows key content =>
    { store with rows := fun k => if k = key then some content else store.rows k }
  | .manifest m => { store with manifest := some m }

end BatchInference
