import BatchInference.Workers.Lifecycle

/-!
# What a cancel call stops

With atomic transactions a cancelled batch stays so, and no chunk of it is leased again. An
execution that is under way is not interrupted. An item reads the status of the batch before it
waits for the semaphore, the limiter and the provider: one that has read it by the cancel goes on
to its answer, and one that reads it later makes a cancelled row, after which the execution gives
its chunk back. So what is still counted after the cancel is the work of executions whose items
had all read the status by then.
-/

namespace BatchInference

open JobPool

variable {env : Env} {now : Int} {s : Shared} {frame f : Frame} {c : Choice} {e : Effect Frame}
  {db : Db} {commit : Commit} {v v' w w' : World Shared Frame} {m : Moves} {n : ℕ}

/-! ## Executions that go on to their end -/

/-- No item of the execution is still to read the status, and none has found it cancelled. -/
def ProcessChunk.Body.yields : ProcessChunk.Body → Bool
  | .gathering _ seen _ => seen.all fun read => read.any (· ≠ .cancelled)
  | .writing _ | .written .. | .loaded .. | .flushed .. | .recomputed .. => true
  | .reading | .cancelling | .cancelLoaded _ | .succeeded => false

def Frame.yields : Frame → Bool
  | .processChunk _ _ (.body _ pc) => pc.yields
  | _ => false

def Commit.succeeds : Commit → Bool
  | .success .. => true
  | _ => false

/-- A chunk has an item. -/
theorem Valid.items_ne_nil (hv : Valid env s) {i : Nat} {chunk : BatchChunk}
    (hl : Loaded s i chunk) {items : List Json}
    (h : readLineRange env.loads (env.reads env.spec.prompts) chunk.offset chunk.limit =
      some items) : items ≠ [] := by
  obtain ⟨row, hrow, hplace, -⟩ := hl
  have hp := hv.isPlan_of_row hrow
  have hm := List.mem_of_getElem? (hplace ▸ hv.plan_of_row hrow)
  have hone : 1 ≤ chunk.limit := hp.one_le_limit hm
  have hlines : (promptLines (env.reads env.spec.prompts).flatten).length =
      env.spec.totalItems := by rw [env.flatten_reads, env.spec.lines_prompts]
  have hlength := length_readLineRange h (hp.offset_nonneg hm) (by omega)
    (by rw [hlines]; exact hp.end_le hm)
  rintro rfl
  simp only [List.length_nil, Nat.cast_zero] at hlength
  omega

theorem ProcessChunk.Body.yields_of_step (hv : Valid env s) {i : Nat} {chunk : BatchChunk}
    {pc pc' : Body} {e : Effect Body} (hl : Loaded s i chunk) (hok : pc.Ok env s i chunk)
    (h : pc.step env s i chunk = some e) (hpc : e.next = some pc') (hy : pc'.yields = true) :
    pc.yields = true ∧ e.commit = none := by
  cases pc with
  | reading =>
    obtain ⟨items, hread, h⟩ := Option.bind_eq_some_iff.mp h
    cases h
    cases hpc
    have hne := hv.items_ne_nil hl hread
    simp [yields, hne] at hy
  | gathering items seen outcomes =>
    obtain ⟨results, hall, h⟩ := Option.bind_eq_some_iff.mp h
    cases h
    simp only [Effect.next_goto, afterGather] at hpc
    split at hpc <;> cases hpc
    · cases hy
    · rename_i hnone
      refine ⟨List.all_eq_true.mpr fun read hread => ?_, rfl⟩
      -- each result is that of an item, which has read a status
      have hlooked := hok.looked
      rw [eq_map_some hall, List.forall₂_map_right_iff] at hlooked
      obtain ⟨j, hj, rfl⟩ := List.getElem_of_mem hread
      obtain ⟨status, hstatus, hcancelled⟩ := hlooked.get hj (hlooked.length_eq ▸ hj) _ rfl
      rw [List.get_eq_getElem] at hstatus hcancelled
      have hother : status ≠ .cancelled := fun heq => hnone <|
        List.any_eq_true.mpr ⟨_, List.getElem_mem _, hcancelled.mpr heq⟩
      simp [hstatus, hother]
  | cancelling =>
    obtain rfl := Option.some.inj h
    split at hpc <;> cases hpc
    cases hy
  | written ok fail =>
    obtain rfl := Option.some.inj h
    split at hpc <;> cases hpc
    exact ⟨rfl, rfl⟩
  | writing | loaded | flushed => cases h; exact ⟨rfl, rfl⟩
  | recomputed => cases h; cases hpc; cases hy
  | cancelLoaded | succeeded => cases h; cases hpc

/-- Once the batch is cancelled no other execution comes to yield anything. -/
theorem yields_of_step (hc : s.db.batch.status = .cancelled) (hv : Valid env s)
    (hok : frame.Ok env s) (h : frame.step env s c = some e) (hm : f ∈ e.frames)
    (hy : f.yields = true) : frame.yields = true ∧ e.commit = none := by
  cases f with
  | processChunk i deferBy pc =>
    cases pc with
    | body chunk pc =>
      obtain ⟨-, hpc, -⟩ | ⟨pc₀, rfl, hgoes⟩ := processChunk_of_step h hm
      · cases hpc
      · generalize e.commit = commit at hgoes ⊢
        cases hgoes with
        | lease => cases hy
        | body hstep hpc => exact ProcessChunk.Body.yields_of_step hv hok.1 hok.2 hstep hpc hy
        | @look chunk items seen outcomes item hunseen =>
          -- it reads that the batch is cancelled
          have hlt := (List.getElem?_eq_some_iff.mp hunseen).1
          have hall := List.all_eq_true.mp hy _ (List.mem_of_getElem? (List.getElem?_set_self hlt))
          simp [hc] at hall
        | reply => exact ⟨hy, rfl⟩
    | _ => cases hy
  | _ => cases hy

theorem Commits.yields (h : Commits env s frame commit) (hs : commit.succeeds = true) :
    frame.yields = true := by
  cases h with
  | success => rfl
  | _ => cases hs

/-- Every success uses up an execution. -/
theorem countP_yields_frames (hc : s.db.batch.status = .cancelled) (hv : Valid env s)
    (hok : frame.Ok env s) (h : frame.step env s c = some e) :
    e.frames.countP Frame.yields + (e.commit.any Commit.succeeds).toNat ≤
      frame.yields.toNat := by
  have hqueued : (e.jobs.map Frame.queued).countP Frame.yields = 0 := by
    rw [List.countP_map]
    exact List.countP_eq_zero.mpr fun job _ => Bool.false_ne_true
  have hone : e.frames.countP Frame.yields ≤ 1 := by
    rw [Effect.frames, List.countP_append, hqueued, Nat.add_zero]
    exact List.countP_le_length.trans (by cases e.next <;> simp)
  by_cases hyields : ∃ f ∈ e.frames, f.yields = true
  · obtain ⟨f, hm, hy⟩ := hyields
    obtain ⟨hframe, hcommit⟩ := yields_of_step hc hv hok h hm hy
    rw [hframe, hcommit]
    exact hone
  · have hzero : e.frames.countP Frame.yields = 0 :=
      List.countP_eq_zero.mpr fun f hm hy => hyields ⟨f, hm, hy⟩
    rw [hzero, Nat.zero_add]
    cases hcommit : e.commit with
    | none => exact Nat.zero_le _
    | some commit =>
      cases hs : commit.succeeds with
      | false => simp [hs]
      | true => simp [hs, (commits_of_step h hcommit).yields hs]

/-! ## Every run -/

/-- The success transactions. -/
def successes (env : Env) (v : World Shared Frame) (m : Moves) : Bool :=
  (commitOf env v m).any Commit.succeeds

def attemptsOf (db : Db) : List Nat := db.chunks.map (·.attempts)

/-- What a run has made of a batch that was cancelled in `w`, with `n` success transactions. -/
structure Withdrawn (w : World Shared Frame) (n : ℕ) (v : World Shared Frame) : Prop where
  status : v.shared.db.batch.status = .cancelled
  attempts : attemptsOf v.shared.db = attemptsOf w.shared.db
  results : v.shared.store.rows .results = w.shared.store.rows .results
  manifest : v.shared.store.manifest = w.shared.store.manifest
  successes_le : n + v.pool.countP Frame.yields ≤ w.pool.countP Frame.yields
  counters : n = 0 →
    v.shared.db.batch.completedItems = w.shared.db.batch.completedItems ∧
      v.shared.db.batch.failedItems = w.shared.db.batch.failedItems

/-- A transaction leases nothing, and counts nothing but a success. -/
theorem Transaction.withdrawn (h : Transaction env now db commit)
    (hc : db.batch.status = .cancelled) :
    (commit.onBatch db.batch).status = .cancelled ∧
      attemptsOf (commit.apply db) = attemptsOf db ∧
      (commit.succeeds = false →
        (commit.onBatch db.batch).completedItems = db.batch.completedItems ∧
          (commit.onBatch db.batch).failedItems = db.batch.failedItems) := by
  have hended : db.batch.status.terminal = true := by
    rw [hc]
    rfl
  have hins : commit.inserted = [] := by
    cases h with
    | orchestrate active => simp [hended] at active
    | _ => rfl
  have hnoLease : ∀ i loaded new, commit ≠ .lease i loaded new := by
    rintro i loaded new rfl
    cases h with
    | lease active => simp [hended] at active
  refine ⟨?_, Commit.map_chunks_apply hins fun i row hrow => ?_, fun hs => h.counters ?_⟩
  · cases h with
    | orchestrate active | lease active | exhausted active | checked active =>
      simp [hended] at active
    | giveUp hrow spent running => simp [hc] at running
    | finalize unfinished => exact absurd (.inr hc) unfinished
    | cancel => rw [Commit.onBatch, Batch.flush_current, cancelBatch, if_pos hended, hc]
    | retry | webhook => simpa [Commit.onBatch, DeliverWebhook.attempt] using hc
    | cancelRelease | success | requeue | reclaim => exact hc
  · have hstep := h.row_step hrow
    generalize commit.onRow i row = row' at hstep ⊢
    cases hstep with
    | lease hcommit => exact absurd hcommit (hnoLease _ _ _)
    | stay | cancelRelease | succeed | fail | unlease => rfl
  · rintro i row new counters rfl
    cases hs

theorem withdrawn_of_fire (hr : (workers env).Reach Atomic (created env now) v)
    (h : Withdrawn w n v) (hf : (workers env).fire v m = some v') :
    Withdrawn w (n + (successes env v m).toNat) v' := by
  have hdb := db_of_fire hf
  have hrow : v'.shared.db.batch.status = .cancelled ∧
      attemptsOf v'.shared.db = attemptsOf v.shared.db ∧
      (successes env v m = false →
        v'.shared.db.batch.completedItems = v.shared.db.batch.completedItems ∧
          v'.shared.db.batch.failedItems = v.shared.db.batch.failedItems) := by
    rw [successes]
    cases hcommit : commitOf env v m with
    | none => simp [hdb, hcommit, h.status]
    | some commit =>
      rw [hdb, hcommit]
      exact (transaction_of_commitOf hr hcommit).withdrawn h.status
  obtain ⟨hstatus, hattempts, hcounters⟩ := hrow
  have hobjects : v'.shared.store.rows .results = v.shared.store.rows .results ∧
      v'.shared.store.manifest = v.shared.store.manifest ∧
      (successes env v m).toNat + v'.pool.countP Frame.yields ≤ v.pool.countP Frame.yields := by
    rcases fire_cases hf with ⟨jobs, hnone, -, hstore, -, hpool⟩ |
      ⟨k, c, frame, e, rfl, hk, he, hcommit, hshared, hpool⟩
    · rw [hstore, hpool, successes, hnone.1, List.countP_append, List.countP_map]
      have hqueued : jobs.countP (Frame.yields ∘ Frame.queued) = 0 :=
        List.countP_eq_zero.mpr fun job _ => Bool.false_ne_true
      simp [hqueued]
    · have hm := List.mem_of_getElem? hk
      refine and_assoc.mp ⟨?_, ?_⟩
      · rw [hshared]
        rcases shared_cases he with hs | ⟨commit, -, hs⟩ | ⟨put, hp, hs⟩ <;> rw [hs]
        · exact ⟨rfl, rfl⟩
        · exact ⟨rfl, rfl⟩
        · have hsnap := snapshot_of_reach hr frame hm
          cases hp with
          | chunk => exact ⟨rfl, rfl⟩
          | @results snap | @manifest snap =>
            exact absurd (.inr (hsnap.1 ▸ h.status)) snap.unfinished
      · have hok := ok_of_reach hr
        have hframes := countP_yields_frames h.status hok.1 (hok.2 frame hm) he
        have hbefore : v.pool.countP Frame.yields =
            (System.others v k).countP Frame.yields + frame.yields.toNat := by
          rw [(System.perm_others hk).countP_eq, List.countP_cons]
          cases frame.yields <;> rfl
        rw [successes, hcommit.1, hpool, List.countP_append, hbefore]
        omega
  obtain ⟨hresults, hmanifest, hle⟩ := hobjects
  refine ⟨hstatus, hattempts.trans h.attempts, hresults.trans h.results,
    hmanifest.trans h.manifest, ?_, fun hzero => ?_⟩
  · have := h.successes_le
    omega
  · have hnone : successes env v m = false := by
      cases hs : successes env v m with
      | false => rfl
      | true => simp [hs] at hzero
    obtain ⟨hcompleted, hfailed⟩ := h.counters (by omega)
    exact ⟨(hcounters hnone).1.trans hcompleted, (hcounters hnone).2.trans hfailed⟩

/-- In every run from a cancelled batch the batch stays cancelled, no chunk is leased, results
and manifest are never put, and the client never gets results; there are no more success
transactions than executions whose items had all read a status other than cancelled, and without
these the counters stay as they are. -/
theorem cancelled_is_final {ms : List Moves}
    (h : (workers env).Reach Atomic (created env now) w)
    (hc : w.shared.db.batch.status = .cancelled)
    (hr : (workers env).run Atomic w ms = some w') :
    Withdrawn w ((workers env).count (successes env) w ms) w' ∧
      ∀ presign redirect, getBatchResults presign w'.shared.store redirect (storedRow env w') =
        .error ⟨409, "Results not ready"⟩ := by
  have hstart : Withdrawn w 0 w := ⟨hc, rfl, rfl, rfl, (Nat.zero_add _).le, fun _ => ⟨rfl, rfl⟩⟩
  have hrun : (workers env).Reach Atomic (created env now) w' ∧
      Withdrawn w ((workers env).count (successes env) w ms) w' := by
    refine System.count_invariant (I := fun n v =>
      (workers env).Reach Atomic (created env now) v ∧ Withdrawn w n v) hr ⟨h, hstart⟩ ?_
    rintro n v m v' ⟨hv, hw⟩ hm hf
    exact ⟨hv.step hm hf, withdrawn_of_fire hv hw hf⟩
  obtain ⟨hw', hwithdrawn⟩ := hrun
  refine ⟨hwithdrawn, fun presign redirect => ?_⟩
  have hnone : w'.shared.db.batch.resultsKey = none := by
    by_contra hkey
    have hcompleted := (resultsKey_iff hw').mp hkey
    rw [hwithdrawn.status] at hcompleted
    cases hcompleted
  simp [getBatchResults, storedRow, hnone]

/-- The first chunk's item has read the status when the batch is cancelled, the second one's
not. -/
def cancelBetween : List Moves :=
  steps 0 6 ++ steps 1 1 ++ steps 0 1 ++ steps 2 3 ++ [.act 2 (.look 0)] ++ steps 0 1 ++
    steps 2 3 ++ [.env (.arrive .cancelBatch)] ++ steps 3 2

/-- Both executions go on to their end, the first one with an answer that comes now. -/
def endBoth : List Moves :=
  [.act 1 (.reply 0 (answer true))] ++ steps 2 7 ++
    [.act 1 (.look 0), .act 2 (.reply 0 (answer true))] ++ steps 2 3

theorem cancelled_is_final_between : ∃ w w',
    (workers (twoPrompts 1 5)).Reach Atomic (created (twoPrompts 1 5) 0) w ∧
    w.shared.db.batch.status = .cancelled ∧
    (workers (twoPrompts 1 5)).run Atomic w endBoth = some w' ∧
    w'.shared.db.chunks.map (·.status) = [.succeeded, .pending] ∧
    Withdrawn w 1 w' := by
  have hrun : (((workers (twoPrompts 1 5)).run Atomic (created (twoPrompts 1 5) 0)
      cancelBetween).bind fun w => ((workers (twoPrompts 1 5)).run Atomic w endBoth).map fun w' =>
        (w.shared.db.batch.status, w'.shared.db.chunks.map (·.status),
          (workers (twoPrompts 1 5)).count (successes (twoPrompts 1 5)) w endBoth)) =
      some (.cancelled, [.succeeded, .pending], 1) := by
    decide +kernel
  obtain ⟨w, hw, hrest⟩ := Option.bind_eq_some_iff.mp hrun
  obtain ⟨w', hw', hsee⟩ := Option.map_eq_some_iff.mp hrest
  simp only [Prod.mk.injEq] at hsee
  obtain ⟨hc, hchunks, hcount⟩ := hsee
  have hfinal := (cancelled_is_final (.of_run hw) hc hw').1
  rw [hcount] at hfinal
  exact ⟨w, w', .of_run hw, hc, hw', hchunks, hfinal⟩

end BatchInference
