import BatchInference.Workers.Atomic

/-!
# When a succeeded chunk stays so

A succeeded row is not leased again and no reclaim touches it. A worker that gives the chunk
back, cancelled or in its failure handler, writes the row without looking at its status:
another worker of the same chunk, or the one that has committed the success itself and
fails to enqueue the check. These are the only ways in which a success is undone.
-/

namespace BatchInference

open JobPool System

variable {env : Env} {now : Int} {db : Db} {commit : Commit} {w : World Shared Frame}

theorem Transaction.succeeded_iff (h : Transaction env now db commit) {i : Nat}
    {row : BatchChunk} (hrow : db.chunks[i]? = some row) (hs : row.status = .succeeded) :
    (commit.onRow i row).status = .succeeded ↔ commit.releases ≠ some i := by
  have reclaimed (t : Int) : (row.reclaim t).status = .succeeded := by
    rw [BatchChunk.reclaim_of_ne (by simp [hs]), hs]
  -- a commit that writes the row of chunk `j`
  have written {j : Nat} {loaded new : BatchChunk} (hj : db.chunks[j]? = some loaded) :
      (if j = i then loaded.flush new row else row).status = .succeeded ↔
        (j = i → new.status = .succeeded) := by
    split
    · rename_i hij
      subst hij
      obtain rfl := Option.some.inj (hj.symm.trans hrow)
      simp
    · simp [*]
  cases h with
  | orchestrate | exhausted | checked | reclaim => simp [Commit.onRow, Commit.releases, reclaimed]
  | finalize | webhook | cancel => simp [Commit.onRow, Commit.releases, hs]
  | @lease j loaded t active hj free =>
    rw [Commit.onRow, written hj]
    suffices j ≠ i by simp [Commit.releases, this]
    rintro rfl
    obtain rfl := Option.some.inj (hj.symm.trans hrow)
    simp [BatchChunk.refused, hs] at free
  | cancelRelease hj => simp [Commit.onRow, written hj, Commit.releases, BatchChunk.cancelRelease]
  | success hj => simp [Commit.onRow, written hj, Commit.releases, BatchChunk.succeed]
  | giveUp hj | retry hj =>
    simp [Commit.onRow, written hj, Commit.releases, BatchChunk.status_fail_ne]
  | @requeue t unleased ht hx =>
    simp only [Commit.onRow, Commit.releases, ne_eq, reduceCtorEq, not_false_eq_true, iff_true]
    split
    · rename_i loaded hl
      obtain ⟨pre, post, rfl, -⟩ := List.lookup_eq_some_iff.mp hl
      obtain ⟨hc, hx⟩ := hx i loaded (by simp)
      obtain rfl := Option.some.inj (hrow.symm.trans hc)
      simp [BatchChunk.expired, hs] at hx
    · exact hs

theorem Transaction.leases_ne (h : Transaction env now db commit) {i : Nat} {row : BatchChunk}
    (hrow : db.chunks[i]? = some row) (hs : row.status = .succeeded) :
    commit.leases ≠ some i := by
  cases h with
  | lease active hj free =>
    rintro ⟨⟩
    obtain rfl := Option.some.inj (hj.symm.trans hrow)
    simp [BatchChunk.refused, hs] at free
  | _ => nofun

/-- A batch becomes failed on account of a failed chunk. -/
theorem Transaction.failed_chunk (h : Transaction env now db commit)
    (hf : (commit.onBatch db.batch).status = .failed) (hb : db.batch.status ≠ .failed) :
    ∃ (i : Nat) (c : BatchChunk), (commit.apply db).chunks[i]? = some c ∧ c.status = .failed := by
  cases h with
  | @giveUp i row exc hrow spent running =>
    refine ⟨i, _, Commit.getElem?_apply_of_row hrow _, ?_⟩
    simp [Commit.onRow, BatchChunk.fail, spent]
  | @exhausted t active ht hx =>
    have hpos : 0 < (countByStatus (reclaimExpiredLeases t db.chunks)).failed := by
      simp only [StatusCounts.exhausted, Bool.and_eq_true, decide_eq_true_eq] at hx
      exact hx.1.1
    obtain ⟨c, hc, hst⟩ := List.countP_pos_iff.mp hpos
    obtain ⟨c₀, hc₀, rfl⟩ := List.mem_map.mp hc
    obtain ⟨i, hi⟩ := List.getElem?_of_mem hc₀
    exact ⟨i, _, Commit.getElem?_apply_of_row hi _, of_decide_eq_true hst⟩
  | lease =>
    simp only [Commit.onBatch] at hf
    split at hf <;> exact absurd hf hb
  | cancel =>
    simp only [Commit.onBatch, Batch.flush_current, cancelBatch] at hf
    split at hf
    · exact absurd hf hb
    · cases hf
  | orchestrate | finalize => simp [Commit.onBatch, Orchestrate.run, Finalize.complete] at hf
  | _ => simp [Commit.onBatch, DeliverWebhook.attempt] at hf; exact absurd hf hb

/-- A step leaves chunk `i` succeeded, does not lease it, and does not fail the batch on its
account. -/
structure StaysSucceeded (env : Env) (i : Nat) (v : World Shared Frame) (m : Moves)
    (v' : World Shared Frame) : Prop where
  row : ∃ c, v'.shared.db.chunks[i]? = some c ∧ c.status = .succeeded
  lease : ∀ commit ∈ commitOf env v m, commit.leases ≠ some i
  batch : v'.shared.db.batch.status = .failed → v.shared.db.batch.status ≠ .failed →
    ∃ (j : Nat) (c : BatchChunk), j ≠ i ∧ v'.shared.db.chunks[j]? = some c ∧ c.status = .failed

theorem staysSucceeded_iff {v v' : World Shared Frame} {m : Moves} {i : Nat} {row : BatchChunk}
    (hr : (workers env).Reach Atomic (created env now) v)
    (hrow : v.shared.db.chunks[i]? = some row) (hs : row.status = .succeeded)
    (hf : (workers env).fire v m = some v') :
    StaysSucceeded env i v m v' ↔ ∀ commit ∈ commitOf env v m, commit.releases ≠ some i := by
  have hdb := db_of_fire hf
  cases hc : commitOf env v m with
  | none =>
    rw [hc, Option.elim_none] at hdb
    refine iff_of_true ⟨⟨row, hdb ▸ hrow, hs⟩, by simp [hc], fun hb hb' => ?_⟩ (by simp)
    exact absurd (hdb ▸ hb) hb'
  | some commit =>
    rw [hc, Option.elim_some] at hdb
    have ht := transaction_of_commitOf hr hc
    have hrow' := Commit.getElem?_apply_of_row hrow commit
    rw [← hdb] at hrow'
    simp only [Option.mem_def, Option.some.injEq, forall_eq']
    rw [← ht.succeeded_iff hrow hs]
    constructor
    · rintro ⟨⟨c, hc', hst⟩, -, -⟩
      obtain rfl := Option.some.inj (hrow'.symm.trans hc')
      exact hst
    · intro hst
      refine ⟨⟨_, hrow', hst⟩, by simpa [hc] using ht.leases_ne hrow hs, fun hb hb' => ?_⟩
      rw [hdb] at hb ⊢
      obtain ⟨j, c, hj, hfailed⟩ := ht.failed_chunk hb hb'
      refine ⟨j, c, ?_, hj, hfailed⟩
      rintro rfl
      obtain rfl := Option.some.inj ((hdb ▸ hrow').symm.trans hj)
      simp [hst] at hfailed

/-- A succeeded chunk stays so throughout a serial run if and only if no worker gives it
back. -/
theorem succeeded_stays_iff (h : (workers env).Reach Atomic (created env now) w) {i : Nat}
    {row : BatchChunk} (hrow : w.shared.db.chunks[i]? = some row) (hs : row.status = .succeeded)
    {ms : List Moves} (hserial : (workers env).Along (fun v m _ => Atomic v m) w ms) :
    (workers env).Along (StaysSucceeded env i) w ms ↔
      (workers env).Along (fun v m _ => ∀ commit ∈ commitOf env v m, commit.releases ≠ some i)
        w ms := by
  refine Along.congr (Q := fun v => (workers env).Reach Atomic (created env now) v ∧
    ∃ c, v.shared.db.chunks[i]? = some c ∧ c.status = .succeeded) hserial ⟨h, row, hrow, hs⟩ ?_
  rintro v m v' ⟨hr, c, hc, hst⟩ hok hf
  exact ⟨staysSucceeded_iff hr hc hst hf, fun hstays => ⟨hr.step hok hf, hstays.row⟩⟩

/-- One chunk of two prompts, processed up to the commit of its success. -/
def succeededRun : List Moves :=
  steps 0 7 ++ steps 1 3 ++ replied 1 0 true ++ replied 1 1 true ++
    steps 1 6

theorem succeeded_stays_iff_enqueued : ∃ w,
    (workers (twoPrompts 2 1)).Reach Atomic (created (twoPrompts 2 1) 0) w ∧
    w.shared.db.chunks.map (·.status) = [.succeeded] ∧
    ((workers (twoPrompts 2 1)).Along (StaysSucceeded (twoPrompts 2 1) 0) w (steps 1 1) ↔
      (workers (twoPrompts 2 1)).Along
        (fun v m _ => ∀ commit ∈ commitOf (twoPrompts 2 1) v m, commit.releases ≠ some 0)
        w (steps 1 1)) := by
  have hrun : ((workers (twoPrompts 2 1)).run Atomic (created (twoPrompts 2 1) 0)
      succeededRun).bind (fun w => ((workers (twoPrompts 2 1)).run Atomic w (steps 1 1)).map
        fun _ => w.shared.db.chunks.map (·.status)) = some [.succeeded] := by decide +kernel
  obtain ⟨w, hw, hrun⟩ := Option.bind_eq_some_iff.mp hrun
  obtain ⟨v, hv, hstatus⟩ := Option.map_eq_some_iff.mp hrun
  obtain ⟨row, rows, hchunks, hs, -⟩ := List.map_eq_cons_iff.mp hstatus
  have hrow : w.shared.db.chunks[0]? = some row := by simp [hchunks]
  exact ⟨w, .of_run hw, hstatus, succeeded_stays_iff (.of_run hw) hrow hs (.of_run hv)⟩

/-- The success is committed, `enqueue_job` raises, and the handler fails the chunk and with
it the batch. -/
theorem succeeded_chunk_fails : ∃ w v,
    (workers (twoPrompts 2 1)).Reach Atomic (created (twoPrompts 2 1) 0) w ∧
    (w.shared.db.batch.status, w.shared.db.chunks.map (·.status)) = (.running, [.succeeded]) ∧
    (workers (twoPrompts 2 1)).Reach Atomic w v ∧
    (v.shared.db.batch.status, v.shared.db.chunks.map (·.status)) = (.failed, [.failed]) :=
  Reach.of_run_append (fun v : World Shared Frame =>
      (v.shared.db.batch.status, v.shared.db.chunks.map (·.status)))
    succeededRun ([.act 1 (.raise "redis")] ++ steps 1 4) (by decide +kernel) (by decide +kernel)

end BatchInference
