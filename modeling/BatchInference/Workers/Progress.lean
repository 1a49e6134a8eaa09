import BatchInference.Workers.Atomic

/-!
# Progress counters

The counters are recomputed from the rows inside each success transaction. With atomic
transactions they never exceed the items there are, whatever is done twice, and they are
exact once all chunks are succeeded. When the statements of two success transactions
interleave, a recompute may leave out a row that is flushed but not committed: the final
counters are exact if and only if some recompute has seen all the other rows.
-/

namespace BatchInference

open JobPool

variable {env : Env} {now : Int}

/-! ## Recomputing -/

/-- A succeeded row accounts for the whole range of its chunk. -/
def SplitsExact (chunks : List BatchChunk) : Prop :=
  ∀ c ∈ chunks, c.status = .succeeded → ((c.okCount + c.failCount : Nat) : Int) = c.limit

theorem completedItems_cons (c : BatchChunk) (chunks : List BatchChunk) :
    (recomputeBatchCounters (c :: chunks)).completedItems =
      (if c.status = .succeeded then c.okCount + c.failCount else 0) +
        (recomputeBatchCounters chunks).completedItems := by
  by_cases h : c.status = .succeeded <;> simp [recomputeBatchCounters, h]

theorem failedItems_cons (c : BatchChunk) (chunks : List BatchChunk) :
    (recomputeBatchCounters (c :: chunks)).failedItems =
      (if c.status = .succeeded then c.failCount else 0) +
        (recomputeBatchCounters chunks).failedItems := by
  by_cases h : c.status = .succeeded <;> simp [recomputeBatchCounters, h]

theorem failedItems_le_completedItems (chunks : List BatchChunk) :
    (recomputeBatchCounters chunks).failedItems ≤
      (recomputeBatchCounters chunks).completedItems := by
  induction chunks with
  | nil => rfl
  | cons c chunks ih =>
    rw [completedItems_cons, failedItems_cons]
    split <;> omega

theorem failedItems_of_all {chunks : List BatchChunk}
    (h : ∀ c ∈ chunks, c.status = .succeeded) :
    (recomputeBatchCounters chunks).failedItems = (chunks.map (·.failCount)).sum := by
  induction chunks with
  | nil => rfl
  | cons c chunks ih =>
    obtain ⟨hc, hchunks⟩ := List.forall_mem_cons.mp h
    rw [failedItems_cons, if_pos hc, ih hchunks, List.map_cons, List.sum_cons]

theorem completedItems_of_all {chunks : List BatchChunk}
    (h : ∀ c ∈ chunks, c.status = .succeeded) :
    (recomputeBatchCounters chunks).completedItems =
      (chunks.map fun c => c.okCount + c.failCount).sum := by
  induction chunks with
  | nil => rfl
  | cons c chunks ih =>
    obtain ⟨hc, hchunks⟩ := List.forall_mem_cons.mp h
    rw [completedItems_cons, if_pos hc, ih hchunks, List.map_cons, List.sum_cons]

theorem completedItems_le {chunks : List BatchChunk} (hl : ∀ c ∈ chunks, 1 ≤ c.limit)
    (hs : SplitsExact chunks) :
    ((recomputeBatchCounters chunks).completedItems : Int) ≤ (chunks.map (·.limit)).sum := by
  induction chunks with
  | nil => rfl
  | cons c chunks ih =>
    obtain ⟨hlc, hl⟩ := List.forall_mem_cons.mp hl
    obtain ⟨hsc, hs⟩ := List.forall_mem_cons.mp hs
    have := ih hl hs
    rw [completedItems_cons, List.map_cons, List.sum_cons]
    split
    · have := hsc ‹_›
      push_cast at *
      omega
    · push_cast
      omega

/-- The sum reaches the total exactly when no row is left out. -/
theorem completedItems_eq_iff {chunks : List BatchChunk} (hl : ∀ c ∈ chunks, 1 ≤ c.limit)
    (hs : SplitsExact chunks) :
    ((recomputeBatchCounters chunks).completedItems : Int) = (chunks.map (·.limit)).sum ↔
      ∀ c ∈ chunks, c.status = .succeeded := by
  induction chunks with
  | nil => simp [recomputeBatchCounters]
  | cons c chunks ih =>
    obtain ⟨hlc, hl⟩ := List.forall_mem_cons.mp hl
    obtain ⟨hsc, hs⟩ := List.forall_mem_cons.mp hs
    have hle := completedItems_le hl hs
    rw [completedItems_cons, List.map_cons, List.sum_cons, List.forall_mem_cons, ← ih hl hs]
    split
    · rename_i hc
      have := hsc hc
      simp only [hc, true_and]
      push_cast at *
      omega
    · rename_i hc
      simp only [hc, false_and, iff_false]
      push_cast
      omega

/-- The rows of a whole plan. -/
theorem recompute_total {chunks : List BatchChunk} (hp : chunks.map (·.place) = env.plan)
    (hne : chunks ≠ []) (hs : SplitsExact chunks) :
    (recomputeBatchCounters chunks).completedItems ≤ env.spec.totalItems ∧
      ((recomputeBatchCounters chunks).completedItems = env.spec.totalItems ↔
        ∀ c ∈ chunks, c.status = .succeeded) := by
  have hplan : IsPlan env.spec.totalItems env.plan :=
    Env.isPlan fun he => hne (by simpa [he] using hp)
  have hl : ∀ c ∈ chunks, 1 ≤ c.limit := fun c hm =>
    hplan.one_le_limit (hp ▸ List.mem_map_of_mem hm : c.place ∈ env.plan)
  have hsum := hplan.sum_limits
  rw [← hp, List.map_map] at hsum
  change (chunks.map (·.limit)).sum = _ at hsum
  have hle := completedItems_le hl hs
  have hiff := completedItems_eq_iff hl hs
  rw [hsum] at hle hiff
  exact ⟨by exact_mod_cast hle, by exact_mod_cast hiff⟩

/-! ## Atomic transactions -/

/-- The counters of the batch, as far as they are determined by the rows. -/
structure Counted (env : Env) (db : Db) : Prop where
  splits : SplitsExact db.chunks
  failed_le : db.batch.failedItems ≤ db.batch.completedItems
  completed_le : db.batch.completedItems ≤ env.spec.totalItems
  exact : db.chunks ≠ [] → (∀ c ∈ db.chunks, c.status = .succeeded) →
    db.batch.completedItems = env.spec.totalItems ∧
      db.batch.failedItems = (db.chunks.map (·.failCount)).sum

/-- Only a success makes a row succeeded, and with it writes the counts. -/
theorem RowStep.succeeded {commit : Commit} {i : Nat} {row row' : BatchChunk}
    (h : RowStep env now commit i row row') (hs : row'.status = .succeeded) :
    row' = row ∨ ∃ (ok fail : Nat) (n : Counters), ((ok + fail : Nat) : Int) = row.limit ∧
      row' = row.succeed i ok fail ∧ commit = .success i row (row.succeed i ok fail) n := by
  cases h with
  | stay => exact .inl rfl
  | succeed h split => exact .inr ⟨_, _, _, split, rfl, h⟩
  | fail => exact absurd hs (row.status_fail_ne _ _)
  | lease | cancelRelease | unlease => cases hs

theorem Transaction.splits {db : Db} {commit : Commit} (h : Transaction env now db commit)
    (hs : SplitsExact db.chunks) : SplitsExact (commit.apply db).chunks := by
  intro c hm hc
  obtain ⟨i, hi⟩ := List.getElem?_of_mem hm
  rcases h.row_origin hi with ⟨row, hrow, hstep⟩ | ⟨-, entry, -, rfl⟩
  · rcases hstep.succeeded hc with rfl | ⟨ok, fail, n, split, rfl, -⟩
    · exact hs _ (List.mem_of_getElem? hrow) hc
    · exact split
  · cases hc

/-- Other commits leave the counters alone. -/
theorem Transaction.counters {db : Db} {commit : Commit} (h : Transaction env now db commit)
    (hk : ∀ i row new n, commit ≠ .success i row new n) :
    (commit.onBatch db.batch).completedItems = db.batch.completedItems ∧
      (commit.onBatch db.batch).failedItems = db.batch.failedItems := by
  cases h with
  | success => exact absurd rfl (hk _ _ _ _)
  | lease =>
    simp only [Commit.onBatch]
    split <;> exact ⟨rfl, rfl⟩
  | cancel =>
    simp only [Commit.onBatch, Batch.flush_current, cancelBatch]
    split <;> exact ⟨rfl, rfl⟩
  | cancelRelease | requeue | reclaim => exact ⟨rfl, rfl⟩
  | _ =>
    simp [Commit.onBatch, Orchestrate.run, ProcessChunk.failBatch, CheckCompletion.failBatch,
      Finalize.complete, DeliverWebhook.attempt]

/-- Rows that are all succeeded after another commit were so before. -/
theorem Transaction.chunks_of_all {db : Db} {commit : Commit}
    (h : Transaction env now db commit) (hk : ∀ i row new n, commit ≠ .success i row new n)
    (hall : ∀ c ∈ (commit.apply db).chunks, c.status = .succeeded) :
    (commit.apply db).chunks = db.chunks := by
  refine List.ext_getElem? fun i => ?_
  cases hi : (commit.apply db).chunks[i]? with
  | none =>
    rw [Commit.getElem?_chunks_apply, Option.map_eq_none_iff, List.getElem?_eq_none_iff,
      List.length_append] at hi
    exact (List.getElem?_eq_none (by omega)).symm
  | some c =>
    have hs := hall c (List.mem_of_getElem? hi)
    rcases h.row_origin hi with ⟨row, hrow, hstep⟩ | ⟨-, entry, -, rfl⟩
    · rcases hstep.succeeded hs with rfl | ⟨ok, fail, n, -, -, hcommit⟩
      · exact hrow.symm
      · exact absurd hcommit (hk _ _ _ _)
    · cases hs

theorem Counted.transaction {s : Shared} {commit : Commit} (hv : Valid env s)
    (hc : Counted env s.db) (h : Transaction env s.now s.db commit) :
    Counted env (commit.apply s.db) := by
  have hsplits := h.splits hc.splits
  by_cases hk : ∀ i row new n, commit ≠ .success i row new n
  · obtain ⟨hcomp, hfail⟩ := h.counters hk
    refine ⟨hsplits, ?_, ?_, fun hne hall => ?_⟩
    · rw [Commit.batch_apply, hcomp, hfail]; exact hc.failed_le
    · rw [Commit.batch_apply, hcomp]; exact hc.completed_le
    · have hrows := h.chunks_of_all hk hall
      rw [hrows] at hne hall ⊢
      rw [Commit.batch_apply, hcomp, hfail]
      exact hc.exact hne hall
  · push Not at hk
    obtain ⟨i, row, new, n, rfl⟩ := hk
    cases h with
    | @success _ ok fail _ hrow split =>
      rw [Commit.chunks_apply_of_row hrow rfl fun _ _ => rfl] at hsplits
      have hne : s.db.chunks ≠ [] := fun he => by simp [he] at hrow
      have hp := (map_set_of_eq (·.place) (b := row.succeed i ok fail) hrow rfl).trans
        (hv.planned.resolve_left hne)
      obtain ⟨hle, hiff⟩ := recompute_total hp (by simpa using hne) hsplits
      refine ⟨?_, failedItems_le_completedItems _, hle, fun _ hall => ?_⟩
      · rwa [Commit.chunks_apply_of_row hrow rfl fun _ _ => rfl]
      · rw [Commit.chunks_apply_of_row hrow rfl fun _ _ => rfl] at hall ⊢
        exact ⟨hiff.mpr hall, failedItems_of_all hall⟩

variable {w : World Shared Frame}

theorem counted_of_reach (h : (workers env).Reach Atomic (created env now) w) :
    Counted env w.shared.db := by
  refine atomic_invariant h ⟨?_, ?_, ?_, ?_⟩ fun s commit hv hc ht => hc.transaction hv ht
  all_goals simp [created, SplitsExact]

theorem progress_bounds (h : (workers env).Reach Atomic (created env now) w) :
    w.shared.db.batch.failedItems ≤ w.shared.db.batch.completedItems ∧
      w.shared.db.batch.completedItems ≤ env.spec.totalItems ∧
      (w.shared.db.chunks ≠ [] → (∀ c ∈ w.shared.db.chunks, c.status = .succeeded) →
        w.shared.db.batch.completedItems = env.spec.totalItems ∧
        w.shared.db.batch.failedItems = (w.shared.db.chunks.map (·.failCount)).sum) :=
  have hc := counted_of_reach h
  ⟨hc.failed_le, hc.completed_le, hc.exact⟩

theorem progress_bounds_twoPrompts : ∃ w,
    (workers (twoPrompts 1 5)).Reach Atomic (created (twoPrompts 1 5) 0) w ∧
    w.shared.db.batch.status = .completed ∧
    w.shared.db.batch.failedItems ≤ w.shared.db.batch.completedItems ∧
    w.shared.db.batch.completedItems ≤ 2 ∧
    (w.shared.db.chunks ≠ [] → (∀ c ∈ w.shared.db.chunks, c.status = .succeeded) →
      w.shared.db.batch.completedItems = 2 ∧
      w.shared.db.batch.failedItems = (w.shared.db.chunks.map (·.failCount)).sum) := by
  have hrun : ((workers (twoPrompts 1 5)).run Atomic (created (twoPrompts 1 5) 0)
      completedRun).map (·.shared.db.batch.status) = some .completed := by decide +kernel
  obtain ⟨w, hw, hc⟩ := Option.map_eq_some_iff.mp hrun
  exact ⟨w, .of_run hw, hc, progress_bounds (.of_run hw)⟩

end BatchInference
