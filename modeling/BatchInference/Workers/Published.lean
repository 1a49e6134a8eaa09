import BatchInference.Api.Reads
import BatchInference.Workers.Completeness
import BatchInference.Workers.Progress

/-!
# What a client reads

With atomic transactions a batch has its results key exactly while it is completed, and
finalize_batch puts nothing for a batch that is. So the results are not ready until the batch
is completed, and from then on every download is the same body, whatever jobs are still under
way; the row's counters may still change, but the fraction that is made of them is one.
-/

namespace BatchInference

open JobPool

variable {env : Env} {now : Int} {s : Shared} {frame : Frame} {db : Db} {commit : Commit}
  {v v' w w' : World Shared Frame} {m : Moves}

/-- Only finalize_batch gives a batch its key, and it completes the batch. -/
theorem Transaction.keyed (h : Transaction env now db commit)
    (hk : db.batch.resultsKey ≠ none → db.batch.status = .completed)
    (hkey : (commit.onBatch db.batch).resultsKey ≠ none) :
    (commit.onBatch db.batch).status = .completed := by
  have unkeyed (active : db.batch.status.terminal = false) : db.batch.resultsKey = none := by
    by_contra hne
    simp [hk hne, BatchStatus.terminal] at active
  cases h with
  | orchestrate active | exhausted active | checked active =>
    exact absurd (unkeyed active) (by simpa [Commit.onBatch, Orchestrate.run,
      CheckCompletion.failBatch] using hkey)
  | giveUp hrow spent running =>
    refine absurd (unkeyed ?_) (by simpa [Commit.onBatch, ProcessChunk.failBatch] using hkey)
    rw [running]
    rfl
  | finalize => simp [Commit.onBatch, Finalize.complete]
  | lease active =>
    simp only [Commit.onBatch] at hkey ⊢
    split_ifs at hkey ⊢ <;> exact hk hkey
  | cancel =>
    simp only [Commit.onBatch, Batch.flush_current, cancelBatch] at hkey ⊢
    split_ifs at hkey ⊢ with hended
    · exact hk hkey
    · exact absurd (unkeyed (by simpa using hended)) hkey
  | retry | webhook =>
    simp only [Commit.onBatch, Batch.flush_current, DeliverWebhook.attempt] at hkey ⊢
    exact hk hkey
  | cancelRelease | success | requeue | reclaim => exact hk hkey

/-- A completed batch stays so, with its key. -/
theorem Transaction.published (h : Transaction env now db commit)
    (hc : db.batch.status = .completed) :
    (commit.onBatch db.batch).status = .completed ∧
      (commit.onBatch db.batch).resultsKey = db.batch.resultsKey := by
  have hended : db.batch.status.terminal = true := by
    rw [hc]
    rfl
  cases h with
  | orchestrate active | lease active | exhausted active | checked active =>
    simp [hended] at active
  | giveUp hrow spent running => simp [hc] at running
  | finalize unfinished => exact absurd (.inl hc) unfinished
  | cancel =>
    rw [Commit.onBatch, Batch.flush_current, cancelBatch, if_pos hended]
    exact ⟨hc, rfl⟩
  | retry | webhook => simpa [Commit.onBatch, DeliverWebhook.attempt] using hc
  | cancelRelease | success | requeue | reclaim => exact ⟨hc, rfl⟩

theorem resultsKey_iff (h : (workers env).Reach Atomic (created env now) w) :
    w.shared.db.batch.resultsKey ≠ none ↔ w.shared.db.batch.status = .completed := by
  refine ⟨?_, (valid_of_reach h).completed⟩
  exact atomic_invariant (P := fun db => db.batch.resultsKey ≠ none → db.batch.status = .completed)
    h (by simp [created]) fun s commit _ hk ht => ht.keyed hk

/-- What a client may have seen of a completed batch. -/
def Same (s s' : Shared) : Prop :=
  s'.db.batch.status = .completed ∧ s'.db.batch.resultsKey = s.db.batch.resultsKey ∧
    s'.store.rows .results = s.store.rows .results ∧ s'.store.manifest = s.store.manifest

/-- No step touches what a completed batch has published. -/
theorem same_of_fire (hr : (workers env).Reach Atomic (created env now) v)
    (hc : v.shared.db.batch.status = .completed) (hf : (workers env).fire v m = some v') :
    Same v.shared v'.shared := by
  have hdb := db_of_fire hf
  have hbatch : v'.shared.db.batch.status = .completed ∧
      v'.shared.db.batch.resultsKey = v.shared.db.batch.resultsKey := by
    cases hcommit : commitOf env v m with
    | none => simp [hdb, hcommit, hc]
    | some commit =>
      rw [hdb, hcommit]
      exact (transaction_of_commitOf hr hcommit).published hc
  refine ⟨hbatch.1, hbatch.2, ?_⟩
  rcases fire_cases hf with ⟨jobs, -, -, hstore, -⟩ | ⟨k, c, frame, e, rfl, hk, he, -, hshared, -⟩
  · rw [hstore]
    exact ⟨rfl, rfl⟩
  · rw [hshared]
    rcases shared_cases he with hs | ⟨commit, -, hs⟩ | ⟨put, hp, hs⟩ <;> rw [hs]
    · exact ⟨rfl, rfl⟩
    · exact ⟨rfl, rfl⟩
    · have hsnap := snapshot_of_reach hr frame (List.mem_of_getElem? hk)
      cases hp with
      | chunk => exact ⟨rfl, rfl⟩
      | @results snap | @manifest snap =>
        exact absurd (.inl (hsnap.1 ▸ hc)) snap.unfinished

theorem same_of_reach (hr : (workers env).Reach Atomic (created env now) w)
    (hc : w.shared.db.batch.status = .completed) (h : (workers env).Reach Atomic w w') :
    Same w.shared w'.shared := by
  induction h with
  | refl => exact ⟨hc, rfl, rfl, rfl⟩
  | step hbefore _ hf ih =>
    have hstep := same_of_fire (hr.trans hbefore) ih.1 hf
    exact ⟨hstep.1, hstep.2.1.trans ih.2.1, hstep.2.2.1.trans ih.2.2.1,
      hstep.2.2.2.trans ih.2.2.2⟩

/-! ## Responses -/

/-- The object at a results key has a row for each item. -/
theorem Valid.rows_of_key (hv : Valid env s) {key : ObjectKey}
    (h : s.db.batch.resultsKey = some key) :
    key = .results ∧ ∃ rows, s.store.rows .results = some rows ∧
      rows.length = env.spec.totalItems := by
  obtain ⟨rfl, hres, c, hrow⟩ := hv.resultsKey h
  obtain ⟨rows, hrows⟩ := Option.isSome_iff_exists.mp hres
  obtain ⟨segments, hseg, rfl⟩ := hv.results hrows
  have hp := hv.isPlan_of_row hrow
  have hlength := sum_length_segments (fun entry hm =>
    ⟨hp.offset_nonneg hm, (hp.one_le_limit hm).trans' (by norm_num), hp.end_le hm⟩) hseg
  rw [hp.sum_limits, Nat.cast_inj] at hlength
  exact ⟨rfl, _, hrows, hlength⟩

/-- What `get_batch` returns. -/
def storedRow (env : Env) (w : World Shared Frame) : Option (BatchSpec × Batch) :=
  some (env.spec, w.shared.db.batch)

theorem getBatchResults_of_key {presign : ObjectKey → String} {redirect : Bool} {key : ObjectKey}
    (h : w.shared.db.batch.resultsKey = some key) :
    getBatchResults presign w.shared.store redirect (storedRow env w) =
      if redirect then .ok (.redirect (presign key))
      else .ok (.stream (w.shared.store.body key) s!"{env.spec.id}-results.ndjson") := by
  simp [getBatchResults, storedRow, h]

/-- The results are not ready exactly while the batch is not completed. Once a client has been
given a body, it is a line for each item, every later request is given the same one, and the
batch is shown as completed, with the URL of it. -/
theorem results_published (presign : ObjectKey → String) (baseUrl : String)
    (h : (workers env).Reach Atomic (created env now) w)
    (h' : (workers env).Reach Atomic w w') :
    (∀ redirect, getBatchResults presign w.shared.store redirect (storedRow env w) =
        .error ⟨409, "Results not ready"⟩ ↔ w.shared.db.batch.status ≠ .completed) ∧
      ∀ body filename, getBatchResults presign w.shared.store false (storedRow env w) =
          .ok (.stream body filename) →
        (∃ content lines, body = some content ∧ Lines.cut lf content = (lines, []) ∧
          lines.length = env.spec.totalItems) ∧
        getBatchResults presign w'.shared.store false (storedRow env w') =
          .ok (.stream body filename) ∧
        ∃ r, getBatchEndpoint baseUrl (storedRow env w') = .ok r ∧ r.status = "completed" ∧
          r.resultUrl = some (apiResultsUrl baseUrl env.spec.id) := by
  constructor
  · intro redirect
    rw [Ne, ← resultsKey_iff h, not_not]
    cases hkey : w.shared.db.batch.resultsKey with
    | none => simp [getBatchResults, storedRow, hkey]
    | some key =>
      rw [getBatchResults_of_key hkey]
      cases redirect <;> simp
  · intro body filename hok
    cases hkey : w.shared.db.batch.resultsKey with
    | none => simp [getBatchResults, storedRow, hkey] at hok
    | some key =>
      have hc : w.shared.db.batch.status = .completed := (resultsKey_iff h).mp (by simp [hkey])
      obtain ⟨-, hresults, hstore, -⟩ := same_of_reach h hc h'
      obtain ⟨rfl, rows, hrows, hlength⟩ := (valid_of_reach h).rows_of_key hkey
      have hcontent : w.shared.store.body .results = some (bodyOf rows) := by
        rw [Store.body, hrows, Option.map_some]
      have hkey' : w'.shared.db.batch.resultsKey = some .results := hresults.trans hkey
      have hcontent' : w'.shared.store.body .results = some (bodyOf rows) := by
        rw [Store.body, hstore, hrows, Option.map_some]
      rw [getBatchResults_of_key hkey, hcontent, if_neg Bool.false_ne_true] at hok
      cases hok
      refine ⟨⟨_, _, rfl, cut_writeChunkResults _, by rw [List.length_map, List.length_map,
        hlength]⟩, by rw [getBatchResults_of_key hkey', hcontent', if_neg Bool.false_ne_true], ?_⟩
      refine ⟨_, rfl, ?_, by simp [toResponse, hkey']⟩
      rw [toResponse, (same_of_reach h hc h').1, BatchStatus.value]

/-- A cancel call comes after the batch is completed. -/
theorem results_published_twoPrompts : ∃ w w' body,
    (workers (twoPrompts 1 5)).Reach Atomic (created (twoPrompts 1 5) 0) w ∧
    (workers (twoPrompts 1 5)).Reach Atomic w w' ∧
    getBatchResults (fun _ => "") w.shared.store false (storedRow (twoPrompts 1 5) w) =
      .ok (.stream body "01-results.ndjson") ∧
    getBatchResults (fun _ => "") w'.shared.store false (storedRow (twoPrompts 1 5) w') =
      .ok (.stream body "01-results.ndjson") := by
  have hbefore : ((workers (twoPrompts 1 5)).run Atomic (created (twoPrompts 1 5) 0)
      completedRun).map (·.shared.db.batch.resultsKey) = some (some .results) := by
    decide +kernel
  have hafter : ((workers (twoPrompts 1 5)).run Atomic (created (twoPrompts 1 5) 0)
      (completedRun ++ [.env (.arrive .cancelBatch), .act 3 .next, .act 3 .next])).map
        (·.shared.db.batch.resultsKey) = some (some .results) := by
    decide +kernel
  obtain ⟨w, w', h, hkey, h', -⟩ := System.Reach.of_run_append _ _ _ hbefore hafter
  have hok : getBatchResults (fun _ => "") w.shared.store false (storedRow (twoPrompts 1 5) w) =
      .ok (.stream (w.shared.store.body .results) "01-results.ndjson") :=
    getBatchResults_of_key hkey
  exact ⟨w, w', _, h, h', hok,
    ((results_published (fun _ => "") "http://api/" h h').2 _ _ hok).2.1⟩

/-- The fraction of a response lies between 0 and 1, and it is 1 as soon as the items that are
left are at most one in two million: of a batch of fewer items, when they are all counted. -/
theorem progress_fraction (baseUrl : String)
    (h : (workers env).Reach Atomic (created env now) w) :
    ∃ r, getBatchEndpoint baseUrl (storedRow env w) = .ok r ∧
      0 ≤ r.progress.fraction ∧ r.progress.fraction ≤ 1 ∧
      (r.progress.fraction = 1 ↔
        2000000 * (r.progress.totalItems - r.progress.completedItems) ≤ r.progress.totalItems) :=
  ⟨_, rfl, fraction_unit env.spec.one_le_totalItems env.spec.totalItems_lt
    (counted_of_reach h).completed_le⟩

theorem progress_fraction_twoPrompts : ∃ w,
    (workers (twoPrompts 1 5)).Reach Atomic (created (twoPrompts 1 5) 0) w ∧
    ∃ r, getBatchEndpoint "http://api/" (storedRow (twoPrompts 1 5) w) = .ok r ∧
      0 ≤ r.progress.fraction ∧ r.progress.fraction ≤ 1 ∧
      (r.progress.fraction = 1 ↔
        2000000 * (r.progress.totalItems - r.progress.completedItems) ≤ r.progress.totalItems) := by
  have hrun : ((workers (twoPrompts 1 5)).run Atomic (created (twoPrompts 1 5) 0)
      completedRun).isSome = true := by decide +kernel
  obtain ⟨w, hw⟩ := Option.isSome_iff_exists.mp hrun
  exact ⟨w, .of_run hw, progress_fraction "http://api/" (.of_run hw)⟩

end BatchInference
