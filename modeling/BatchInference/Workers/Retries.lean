import BatchInference.Workers.Attempts

/-!
# The retry count

`retry_count` is kept in two ways: a lease adds one when it is not the chunk's first, and a
success sums up all rows again. In every serial run both give the same number.
-/

namespace BatchInference

open JobPool System

variable {env : Env} {now : Int} {w : World Shared Frame}

/-- The leases of a chunk after its first one, as `_recompute_batch_counters` counts them. -/
def BatchChunk.retries (chunk : BatchChunk) : Nat :=
  if 1 < chunk.attempts then chunk.attempts - 1 else 0

/-- `retry_count` is what a recompute would set it to. -/
def Retried (db : Db) : Prop :=
  db.batch.retryCount = (recomputeBatchCounters db.chunks).retryCount

theorem retryCount_eq (chunks : List BatchChunk) :
    (recomputeBatchCounters chunks).retryCount = (chunks.map (·.retries)).sum := rfl

/-- A row is replaced in a sum over all rows. -/
theorem sum_map_set {chunks : List BatchChunk} {i : Nat} {row : BatchChunk}
    (h : chunks[i]? = some row) (new : BatchChunk) (g : BatchChunk → Nat) :
    ((chunks.set i new).map g).sum + g row = (chunks.map g).sum + g new := by
  obtain ⟨hi, rfl⟩ := List.getElem?_eq_some_iff.mp h
  have hnew := ((List.set_perm_cons_eraseIdx hi new).map g).sum_eq
  have hold := ((List.getElem_cons_eraseIdx_perm hi).map g).sum_eq
  rw [List.map_cons, List.sum_cons] at hnew hold
  omega

theorem BatchChunk.retries_eq (chunk : BatchChunk) : chunk.retries = chunk.attempts - 1 := by
  unfold retries
  split <;> omega

/-- The live bump is what the lease adds to the sum. -/
theorem BatchChunk.retries_lease (t : Int) (row : BatchChunk) :
    (row.lease env t).retries = row.retries + if 1 < row.attempts + 1 then 1 else 0 := by
  have hattempts : (row.lease env t).attempts = row.attempts + 1 := rfl
  rw [retries_eq, retries_eq, hattempts]
  split <;> omega

/-- Other commits than leases and successes leave the batch's retry count alone. -/
theorem Transaction.retryCount {db : Db} {commit : Commit} (h : Transaction env now db commit)
    (hl : commit.leases = none) (hk : ∀ i row new n, commit ≠ .success i row new n) :
    (commit.onBatch db.batch).retryCount = db.batch.retryCount := by
  cases h with
  | lease => cases hl
  | success => exact absurd rfl (hk _ _ _ _)
  | cancel =>
    simp only [Commit.onBatch, Batch.flush_current, cancelBatch]
    split <;> rfl
  | cancelRelease | requeue | reclaim => rfl
  | _ =>
    simp [Commit.onBatch, Orchestrate.run, ProcessChunk.failBatch, CheckCompletion.failBatch,
      Finalize.complete, DeliverWebhook.attempt]

/-- A commit that leases no chunk leaves the sum over the rows as it is. -/
theorem Transaction.sum_retries {db : Db} {commit : Commit} (h : Transaction env now db commit)
    (hl : commit.leases = none) :
    ((commit.apply db).chunks.map (·.retries)).sum = (db.chunks.map (·.retries)).sum := by
  by_cases hins : commit.inserted = []
  · rw [Commit.map_chunks_apply hins fun i row hrow => ?_]
    rw [BatchChunk.retries_eq, BatchChunk.retries_eq, h.attempts_onRow hrow, hl]
    simp
  · obtain ⟨hempty, hfresh⟩ := h.fresh hins
    rw [hempty, List.map_nil, List.sum_nil, List.sum_eq_zero]
    intro n hn
    obtain ⟨row, hm, rfl⟩ := List.mem_map.mp hn
    rw [BatchChunk.retries_eq, hfresh row hm, Nat.zero_sub]

theorem Retried.transaction {db : Db} {commit : Commit} (hr : Retried db)
    (h : Transaction env now db commit) : Retried (commit.apply db) := by
  by_cases hk : ∃ i row new n, commit = .success i row new n
  · obtain ⟨i, row, new, n, rfl⟩ := hk
    cases h with
    | success hrow =>
      rw [Retried, Commit.chunks_apply_of_row hrow rfl fun _ _ => rfl]
      rfl
  · push Not at hk
    cases hl : commit.leases with
    | none =>
      rw [Retried, Commit.batch_apply, h.retryCount hl hk, retryCount_eq, h.sum_retries hl]
      exact hr
    | some =>
      cases h with
      | @lease i row t active hrow =>
        have hsum := sum_map_set hrow (row.lease env t) (·.retries)
        have hbump : ((Commit.lease i row (row.lease env t)).onBatch db.batch).retryCount =
            db.batch.retryCount + if 1 < row.attempts + 1 then 1 else 0 := by
          by_cases hmore : 1 < row.attempts + 1 <;>
            simp only [Commit.onBatch, BatchChunk.lease, hmore, ↓reduceIte, add_zero]
        rw [Retried, retryCount_eq] at hr
        rw [BatchChunk.retries_lease] at hsum
        rw [Retried, retryCount_eq, Commit.chunks_apply_of_row hrow rfl fun _ _ => rfl,
          Commit.batch_apply, hbump, hr]
        omega
      | _ => cases hl

theorem retried_of_reach (h : (workers env).Reach Atomic (created env now) w) :
    Retried w.shared.db :=
  atomic_invariant h rfl fun _ _ _ hr ht => hr.transaction ht

/-- In every state of a serial run the retry count is the sum of the excess attempts, and a
recompute would leave it as it is. -/
theorem retry_count_exact (h : (workers env).Reach Atomic (created env now) w) :
    (w.shared.db.batch.retryCount : Int) =
        (w.shared.db.chunks.map fun c => max 0 ((c.attempts : Int) - 1)).sum ∧
      (recomputeBatchCounters w.shared.db.chunks).retryCount = w.shared.db.batch.retryCount := by
  have hr := retried_of_reach h
  refine ⟨?_, hr.symm⟩
  rw [hr, retryCount_eq]
  induction w.shared.db.chunks with
  | nil => rfl
  | cons c chunks ih =>
    rw [List.map_cons, List.sum_cons, List.map_cons, List.sum_cons, ← ih, c.retries_eq]
    push_cast
    omega

/-- The chunk is leased twice. -/
theorem retry_count_exact_leasedAgain : ∃ w,
    (workers (twoPrompts 2 5)).Reach Atomic (created (twoPrompts 2 5) 0) w ∧
    w.shared.db.chunks.map (·.attempts) = [2] ∧
    (w.shared.db.batch.retryCount : Int) =
        (w.shared.db.chunks.map fun c => max 0 ((c.attempts : Int) - 1)).sum ∧
      (recomputeBatchCounters w.shared.db.chunks).retryCount = w.shared.db.batch.retryCount := by
  have hrun : ((workers (twoPrompts 2 5)).run Atomic (created (twoPrompts 2 5) 0)
      leasedAgainRun).map (fun w => w.shared.db.chunks.map (·.attempts)) = some [2] := by
    decide +kernel
  obtain ⟨w, hw, hattempts⟩ := Option.map_eq_some_iff.mp hrun
  exact ⟨w, .of_run hw, hattempts, retry_count_exact (.of_run hw)⟩

end BatchInference
