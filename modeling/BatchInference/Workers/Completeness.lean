import BatchInference.Workers.Invariant

/-!
# No item is lost or duplicated

A completed batch's results object consists of one segment for each chunk, in order, and a
segment has one row for each item of its chunk.
-/

namespace BatchInference

open JobPool

variable {env : Env}

/-- The segments of a complete list of chunks add up to all the items. -/
theorem sum_length_segments {plan : List (Nat × Int × Int)} {parts : List (List Outcome)}
    (hin : ∀ entry ∈ plan, 0 ≤ entry.2.1 ∧ 0 ≤ entry.2.2 ∧
      entry.2.1 + entry.2.2 ≤ env.spec.totalItems)
    (h : List.Forall₂ (Covers env) plan parts) :
    (parts.flatten.length : Int) = (plan.map fun entry => entry.2.2).sum := by
  induction h with
  | nil => rfl
  | @cons entry part plan parts hc h ih =>
    obtain ⟨ho, hl, hend⟩ := hin entry (by simp)
    have := ih fun entry' hm => hin entry' (by simp [hm])
    rw [List.flatten_cons, List.length_append, Nat.cast_add, hc.length ho hl hend, this,
      List.map_cons, List.sum_cons]

/-- A completed batch's results hold one row for each item of each chunk, the chunks in
order, and so one line for each of the batch's items. -/
theorem results_complete {now : Int} {w : World Shared Frame}
    (h : (workers env).Reach (fun _ _ => True) (created env now) w)
    (hc : w.shared.db.batch.status = .completed) :
    ∃ key body segments, w.shared.db.batch.resultsKey = some key ∧
      w.shared.store.body key = some body ∧
      (∃ lines, Lines.cut lf body = (lines, []) ∧ lines.length = env.spec.totalItems) ∧
      body = concatenateChunks (segments.map bodyOf) ∧
      w.shared.db.chunks.map (·.chunkIndex) = List.range w.shared.db.chunks.length ∧
      List.Forall₂ (fun (c : BatchChunk) rows => Covers env c.place rows)
        w.shared.db.chunks segments := by
  have hv := valid_of_reach h
  obtain ⟨key, hkey⟩ := Option.ne_none_iff_exists'.mp (hv.completed hc)
  obtain ⟨rfl, hres, c, hrow⟩ := hv.resultsKey hkey
  obtain ⟨rows, hrows⟩ := Option.isSome_iff_exists.mp hres
  obtain ⟨segments, hseg, rfl⟩ := hv.results hrows
  have hplan := hv.planned.resolve_left fun he => by simp [he] at hrow
  have hp := hv.isPlan_of_row hrow
  have hlines := cut_writeChunkResults (segments.flatten.map Outcome.toJson)
  have hlength := sum_length_segments (fun entry hm =>
    ⟨hp.offset_nonneg hm, (hp.one_le_limit hm).trans' (by norm_num), hp.end_le hm⟩) hseg
  refine ⟨.results, bodyOf segments.flatten, segments, hkey, by simp [Store.body, hrows],
    ⟨_, hlines, ?_⟩, (concatenateChunks_bodyOf segments).symm, ?_, ?_⟩
  · rw [hp.sum_limits, Nat.cast_inj] at hlength
    rw [List.length_map, List.length_map, hlength]
  · have := hp.map_index
    rw [← hplan] at this
    simpa [Function.comp_def, BatchChunk.place] using this
  · rw [← hplan, List.forall₂_map_left_iff] at hseg
    exact hseg

theorem results_complete_twoPrompts : ∃ w,
    (workers (twoPrompts 1 5)).Reach (fun _ _ => True) (created (twoPrompts 1 5) 0) w ∧
    w.shared.db.batch.status = .completed ∧
    ∃ key body segments, w.shared.db.batch.resultsKey = some key ∧
      w.shared.store.body key = some body ∧
      (∃ lines, Lines.cut lf body = (lines, []) ∧ lines.length = 2) ∧
      body = concatenateChunks (segments.map bodyOf) ∧
      w.shared.db.chunks.map (·.chunkIndex) = List.range w.shared.db.chunks.length ∧
      List.Forall₂ (fun (c : BatchChunk) rows => Covers (twoPrompts 1 5) c.place rows)
        w.shared.db.chunks segments := by
  have hrun : ((workers (twoPrompts 1 5)).run (fun _ _ => True) (created (twoPrompts 1 5) 0)
      completedRun).map (·.shared.db.batch.status) = some .completed := by decide +kernel
  obtain ⟨w, hw, hc⟩ := Option.map_eq_some_iff.mp hrun
  exact ⟨w, .of_run hw, hc, results_complete (.of_run hw) hc⟩

end BatchInference
