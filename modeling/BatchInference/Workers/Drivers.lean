import BatchInference.Workers.Invariant
import BatchInference.Workers.Status

/-!
# Who carries a running batch on

A batch is driven by jobs that enqueue one another. While it is running one of them is left
that will hand it on, however the jobs' statements interleave: check_batch_completion stops
only where it fails the batch or has enqueued finalize_batch, and finalize_batch only where
it completes the batch or goes back to the check. A job that announces a result is at its
end, and an orchestration that has planned rows of its own may be refused them; these do not
count. An exception in finalize_batch breaks the chain, since nothing runs the job again.
-/

namespace BatchInference

open JobPool System

variable {env : Env} {now : Int} {s : Shared} {frame : Frame} {c : Choice} {e : Effect Frame}
  {v v' w : World Shared Frame} {m : Moves}

def Job.drives : Job → Bool
  | .orchestrateBatch | .checkBatchCompletion _ | .finalizeBatch => true
  | _ => false

namespace Frame

/-- A job that moves the batch from status to status, queued or under way. -/
def drives : Frame → Bool
  | .queued job => job.drives
  | .orchestrateBatch _ | .checkBatchCompletion .. | .finalizeBatch _ => true
  | _ => false

/-- The job will hand a running batch on. -/
def carries : Frame → Bool
  | .queued job => job.drives
  | .orchestrateBatch pc => match pc with
    | .planned _ _ _ fresh | .reclaimed _ _ _ fresh _ => !fresh
    | _ => true
  | .checkBatchCompletion _ pc => match pc with
    | .counted _ _ counts => 0 < counts.total
    | .announceFailed => false
    | _ => true
  | .finalizeBatch pc => match pc with
    | .announce => false
    | _ => true
  | _ => false

/-- The step is a call of the object store that may raise. -/
def callsSpaces : Frame → Bool
  | .finalizeBatch (.gathering ..) | .finalizeBatch (.concatenated _) => true
  | _ => false

theorem drives_of_carries (h : frame.carries = true) : frame.drives = true := by
  cases frame with
  | queued => exact h
  | orchestrateBatch | checkBatchCompletion | finalizeBatch => rfl
  | _ => cases h

end Frame

/-- The job ends without having returned, and the queue does not run it again. -/
def Choice.aborts : Choice → Bool
  | .raise _ | .timeout => true
  | _ => false

/-! ## A running batch has chunks -/

theorem ne_nil_of_createChunkRows {rows : List BatchChunk}
    (h : createChunkRows env.spec [] = .ok rows) : rows ≠ [] := by
  obtain ⟨hp, rfl⟩ := planned_of_createChunkRows h
  have := isPlan_of_planChunks (env.spec.totalItems_lt.trans (by norm_num)) hp
  simpa using this.ne_nil env.spec.one_le_totalItems

theorem hasRows_iff : HasRows s ↔ s.db.chunks ≠ [] := by
  cases h : s.db.chunks <;> simp [HasRows, h]

/-- An orchestration that adds no rows has found some. -/
def Frame.Found (s : Shared) : Frame → Prop
  | .orchestrateBatch (.planned _ _ _ fresh) | .orchestrateBatch (.reclaimed _ _ _ fresh _) =>
    fresh = false → HasRows s
  | _ => True

theorem Frame.Found.grow {s' : Shared} (h : frame.Found s) (hg : Grows s s') :
    frame.Found s' := by
  cases frame with
  | orchestrateBatch pc =>
    cases pc with
    | planned | reclaimed => exact fun hfresh => (h hfresh).grow hg
    | _ => trivial
  | _ => trivial

theorem Frame.Found.frames (hf : frame.Found s) (h : frame.step env s c = some e) :
    ∀ f ∈ e.frames, f.Found s := by
  intro f hm
  cases f with
  | orchestrateBatch pc =>
    rcases orchestrateBatch_of_step h hm with ⟨-, loaded, rfl⟩ | ⟨pc₀, rfl, hpc⟩
    · trivial
    · cases pc₀ with
      | gotBatch =>
        simp only [Orchestrate.step] at hpc
        split at hpc <;> cases hpc
        intro hfresh
        exact hasRows_iff.mpr (of_decide_eq_false hfresh)
      | planned => cases hpc; exact hf
      | reclaimed =>
        simp only [Orchestrate.step] at hpc
        split at hpc <;> cases hpc
        trivial
      | enqueueing chunkIds => cases chunkIds <;> cases hpc; trivial
  | _ => trivial

/-- Only orchestrate_batch makes a batch running. -/
theorem Commits.running_cases {commit : Commit} (h : Commits env s frame commit)
    (hr : (commit.onBatch s.db.batch).status = .running) :
    s.db.batch.status = .running ∨ ∃ loaded startedAt rows fresh now,
      frame = .orchestrateBatch (.reclaimed loaded startedAt rows fresh now) := by
  rw [commit.status_onBatch] at hr
  cases hc : commit.statusChange with
  | none => exact .inl (by simpa [hc] using hr)
  | some change =>
    obtain ⟨loaded, new⟩ := change
    obtain rfl : new = .running := by simpa [hc] using hr
    cases h with
    | orchestrate => exact .inr ⟨_, _, _, _, _, rfl⟩
    | cancel =>
      simp only [Commit.statusChange, cancelBatch] at hc
      split at hc <;> simp at hc
    | success | lease | cancelRelease | requeue | reclaim => cases hc
    | _ =>
      rw [Commit.statusChange] at hc
      split at hc
      · cases hc
      · simp_all [CheckCompletion.failBatch, ProcessChunk.failBatch, Finalize.complete,
          DeliverWebhook.attempt]

theorem modular_found (env : Env) : (workers env).Modular
    (fun w _ => Valid env w.shared ∧ ∀ f ∈ w.pool, f.Ok env w.shared)
    (fun s => s.db.batch.status = .running → HasRows s) Frame.Found := by
  refine modular_of_steps ?_ ?_ ?_ ?_
  · intro w i c frame e hI hJ ⟨hv, hok⟩ hk he
    have hm := List.mem_of_getElem? hk
    have hg := (hv.write (hok frame hm) he).2
    refine ⟨fun hrun => ?_, ?_⟩
    · rcases db_cases he with hdb | ⟨commit, hc, hdb⟩ <;> rw [hdb] at hrun
      · exact (hI hrun).grow hg
      · rcases hc.running_cases hrun with hr | ⟨loaded, startedAt, rows, fresh, t, rfl⟩
        · exact (hI hr).grow hg
        · cases fresh with
          | false => exact (hJ _ hm rfl).grow hg
          | true =>
            cases hc
            rw [hasRows_iff, hdb]
            simp [Commit.apply, Commit.inserted, ne_nil_of_createChunkRows (hok _ hm rfl)]
    · exact fun f hf => ((hJ _ hm).frames he f hf).grow hg
  · intro w i c frame e f _ ⟨hv, hok⟩ hk _ he _ hf
    exact hf.grow (hv.write (hok frame (List.mem_of_getElem? hk)) he).2
  · intro w job _
    trivial
  · intro s seconds hI
    exact ⟨hI, fun f hf => hf.grow ⟨(Grows.refl _).rows, id, id⟩⟩

theorem rows_of_reach {ok : World Shared Frame → Moves → Prop}
    (h : (workers env).Reach ok (created env now) w) (hr : w.shared.db.batch.status = .running) :
    HasRows w.shared := by
  refine (System.Modular.reach (modular_found env) ?_ ?_
    ((h.and fun v hv => ok_of_reach hv).mono fun _ _ hm => hm.2)).1 hr
  · simp [created]
  · simp [created, Frame.Found]

/-! ## Handing on -/

theorem Orchestrate.hand_on {pc : Pc} (hrows : HasRows s)
    (hc : Frame.carries (.orchestrateBatch pc) = true) :
    ∃ f ∈ ((step env s pc).map Frame.orchestrateBatch).frames, f.carries = true := by
  rw [hasRows_iff] at hrows
  cases pc with
  | gotBatch => simp [step, createChunkRows, hrows, Effect.frames, Frame.carries]
  | planned => simpa [step, Effect.frames, Frame.carries] using hc
  | reclaimed loaded startedAt rows fresh now =>
    obtain rfl : fresh = false := by simpa [Frame.carries] using hc
    simp [step, Effect.frames, Effect.map, Frame.carries]
  | enqueueing chunkIds =>
    cases chunkIds <;> simp [step, Effect.frames, Effect.map, Frame.carries, Job.drives]

theorem StatusCounts.pendingish_pos {n : StatusCounts} (ht : 0 < n.total)
    (hx : n.exhausted = false) (hs : n.allSucceeded = false) : 0 < n.pendingish := by
  simp only [exhausted, allSucceeded, Bool.and_eq_false_iff, decide_eq_false_iff_not] at hx hs
  unfold total pendingish at *
  omega

theorem total_countByStatus (chunks : List BatchChunk) :
    (countByStatus chunks).total = chunks.length := by
  induction chunks with
  | nil => rfl
  | cons c chunks ih =>
    simp only [countByStatus, StatusCounts.total, List.countP_cons] at ih ⊢
    cases c.status <;> simp <;> omega

theorem CheckCompletion.hand_on {deferBy : Nat} {pc : Pc} (hrows : HasRows s)
    (hc : Frame.carries (.checkBatchCompletion deferBy pc) = true)
    (hr : (((step s pc).map (Frame.checkBatchCompletion deferBy)).shared s).db.batch.status =
      .running) :
    ∃ f ∈ ((step s pc).map (Frame.checkBatchCompletion deferBy)).frames, f.carries = true := by
  cases pc with
  | gotBatch | enqueueFinalize | selectPending | repoll =>
    simp [step, Effect.frames, Effect.map, Frame.carries, Job.drives]
  | reclaimed loaded now =>
    rw [hasRows_iff] at hrows
    simpa [step, Effect.frames, Frame.carries, total_countByStatus, reclaimExpiredLeases,
      List.length_pos_iff] using hrows
  | counted loaded now counts =>
    have ht : 0 < counts.total := by simpa [Frame.carries] using hc
    by_cases hx : counts.exhausted = true
    · -- the batch has become failed
      have hne : BatchStatus.failed ≠ loaded.row.status := fun h => by
        simpa [← h, BatchStatus.terminal] using loaded.not_terminal
      simp [step, hx, Effect.shared, Effect.map, Commit.onBatch, Batch.flush, failBatch,
        column_of_ne hne] at hr
    · by_cases hs : counts.allSucceeded = true
      · simp [step, hx, hs, Effect.frames, Effect.map, Frame.carries]
      · have := StatusCounts.pendingish_pos ht (by simpa using hx) (by simpa using hs)
        simp [step, hx, hs, this, Effect.frames, Effect.map, Frame.carries]
  | requeueing unleased todo =>
    cases todo <;> simp [step, Effect.frames, Effect.map, Frame.carries]
  | announceFailed => cases hc

theorem Finalize.hand_on {pc : Pc} {e : Effect Pc} (h : step env s pc = some e)
    (hc : Frame.carries (.finalizeBatch pc) = true)
    (hr : ((e.map Frame.finalizeBatch).shared s).db.batch.status = .running) :
    ∃ f ∈ (e.map Frame.finalizeBatch).frames, f.carries = true := by
  cases pc with
  | gotBatch =>
    simp only [step] at h
    split at h <;> cases h <;> simp [Effect.frames, Frame.carries]
  | incomplete => cases h; simp [Effect.frames, Effect.map, Frame.carries, Job.drives]
  | gathering snap keys parts =>
    cases keys with
    | nil => cases h; simp [Effect.frames, Effect.map, Frame.carries]
    | cons key keys =>
      obtain ⟨_, -, h⟩ := Option.bind_eq_some_iff.mp h
      cases h
      simp [Effect.frames, Frame.carries]
  | concatenated => cases h; simp [Effect.frames, Effect.map, Frame.carries]
  | committing snap =>
    -- the batch has become completed
    cases h
    have hne : BatchStatus.completed ≠ snap.batch.status := fun h =>
      snap.unfinished (.inl h.symm)
    simp [Effect.shared, Effect.map, Commit.onBatch, Batch.flush, complete,
      column_of_ne hne] at hr
  | announce => cases hc

/-- A job that carries a running batch hands it on, unless it aborts. -/
theorem hand_on (h : frame.step env s c = some e) (habort : c.aborts = false)
    (hrows : HasRows s) (hc : frame.carries = true) (hbefore : s.db.batch.status = .running)
    (hafter : (e.shared s).db.batch.status = .running) : ∃ f ∈ e.frames, f.carries = true := by
  cases c with
  | next =>
    cases frame with
    | queued job =>
      cases h
      cases job with
      | orchestrateBatch => simp [Frame.start, Orchestrate.start, hbefore, BatchStatus.terminal,
          Effect.frames, Frame.carries]
      | checkBatchCompletion => simp [Frame.start, CheckCompletion.start, hbefore,
          BatchStatus.terminal, Effect.frames, Frame.carries]
      | finalizeBatch => simp [Frame.start, Finalize.start, hbefore, Effect.frames, Frame.carries]
      | _ => cases hc
    | orchestrateBatch => cases h; exact Orchestrate.hand_on hrows hc
    | checkBatchCompletion => cases h; exact CheckCompletion.hand_on hrows hc hafter
    | finalizeBatch =>
      obtain ⟨e₁, h₁, rfl⟩ := Option.map_eq_some_iff.mp h
      exact Finalize.hand_on h₁ hc hafter
    | _ => cases hc
  | look | reply | posted | backoff =>
    cases frame with
    | orchestrateBatch | checkBatchCompletion | finalizeBatch | queued => cases h
    | _ => cases hc
  | crash =>
    cases h
    cases frame with
    | queued => exact ⟨_, List.mem_singleton_self _, hc⟩
    | orchestrateBatch | checkBatchCompletion | finalizeBatch =>
      exact ⟨_, List.mem_singleton_self _, rfl⟩
    | _ => cases hc
  | raise | timeout => cases habort

/-- The orchestration that makes a batch running carries it. -/
theorem carries_of_running (h : frame.step env s c = some e)
    (hbefore : s.db.batch.status ≠ .running)
    (hafter : (e.shared s).db.batch.status = .running) : ∃ f ∈ e.frames, f.carries = true := by
  rcases db_cases h with hdb | ⟨commit, hcommit, hdb⟩ <;> rw [hdb] at hafter
  · exact absurd hafter hbefore
  · rcases hcommit.running_cases hafter with hr | ⟨loaded, startedAt, rows, fresh, t, rfl⟩
    · exact absurd hr hbefore
    · cases c with
      | next =>
        cases h
        simp only [Orchestrate.step] at hdb ⊢
        split
        · rw [if_pos ‹_›] at hdb
          exact absurd (hdb ▸ hafter) hbefore
        · exact ⟨_, List.mem_cons_self, rfl⟩
      | look | reply | posted | backoff => cases h
      | raise | crash | timeout =>
        cases h
        exact absurd (hdb ▸ hafter) hbefore

/-! ## Every run -/

/-- A job that aborts while it carries a running batch leaves another one that does. -/
def Relieved (w : World Shared Frame) : Moves → Prop
  | .act i c => c.aborts = true → w.shared.db.batch.status = .running →
    ∀ f ∈ w.pool[i]?, f.carries = true → ∃ g ∈ others w i, g.carries = true
  | .env _ => True

theorem shared_of_aborts (h : frame.step env s c = some e) (ha : c.aborts = true) :
    e.shared s = s := by
  cases c with
  | raise | timeout => cases h; rfl
  | _ => cases ha

theorem baton (env : Env) : (workers env).Baton Relieved
    (fun w => w.shared.db.batch.status = .running → HasRows w.shared)
    (fun s => s.db.batch.status = .running) (fun f => f.carries = true) := by
  refine ⟨?_, ?_⟩
  · intro w i c k s ks hrows hrelieved hk hstep hafter
    obtain ⟨e, he, hr⟩ := step_iff.mp hstep
    cases hr
    by_cases hbefore : w.shared.db.batch.status = .running
    · cases hc : k.carries with
      | false => exact .inl ⟨hbefore, by simp⟩
      | true =>
        cases ha : c.aborts with
        | false => exact .inr (.inl (hand_on he ha (hrows hbefore) hc hbefore hafter))
        | true => exact .inr (.inr (hrelieved ha hbefore k hk hc))
    · exact .inr (.inl (carries_of_running he hbefore hafter))
  · intro w e s ks _ _ henv hr
    cases e <;> cases henv <;> exact .inl hr

theorem carried_of_reach (h : (workers env).Reach Relieved (created env now) w) :
    w.shared.db.batch.status = .running → ∃ f ∈ w.pool, f.carries = true :=
  (baton env).reach (fun _ hv => rows_of_reach hv) (by simp [created]) h

/-- No driver aborts. It may crash: then it is run again. -/
def DriversReturn (w : World Shared Frame) : Moves → Prop
  | .act i c => c.aborts = true → ∀ f ∈ w.pool[i]?, f.drives = false
  | .env _ => True

instance : DecidableRel DriversReturn
  | w, .act i c =>
    inferInstanceAs <| Decidable <| c.aborts = true → ∀ f ∈ w.pool[i]?, f.drives = false
  | _, .env _ => inferInstanceAs (Decidable True)

theorem DriversReturn.relieved (h : DriversReturn v m) : Relieved v m := by
  cases m with
  | act i c =>
    intro ha _ f hf hc
    exact absurd (Frame.drives_of_carries hc) (by simp [h ha f hf])
  | env => trivial

/-- A running batch has a driver left, whatever the jobs' order and wherever they crash. -/
theorem running_batch_driven (h : (workers env).Reach DriversReturn (created env now) w)
    (hr : w.shared.db.batch.status = .running) : ∃ f ∈ w.pool, f.drives = true := by
  obtain ⟨f, hm, hc⟩ := carried_of_reach (h.mono fun _ _ hm => hm.relieved) hr
  exact ⟨f, hm, Frame.drives_of_carries hc⟩

theorem running_batch_driven_crashed : ∃ w,
    (workers (twoPrompts 1 5)).Reach DriversReturn (created (twoPrompts 1 5) 0) w ∧
    w.shared.db.batch.status = .running ∧ ∃ f ∈ w.pool, f.drives = true := by
  have hrun : ((workers (twoPrompts 1 5)).run DriversReturn (created (twoPrompts 1 5) 0)
      (steps 0 6 ++ [.act 1 .crash])).map (·.shared.db.batch.status) = some .running := by
    decide +kernel
  obtain ⟨w, hw, hr⟩ := Option.map_eq_some_iff.mp hrun
  exact ⟨w, .of_run hw, hr, running_batch_driven (.of_run hw) hr⟩

/-! ## Errors in finalize_batch -/

/-- A driver aborts nowhere but in finalize_batch's calls of the object store. -/
def SpacesErrors (w : World Shared Frame) : Moves → Prop
  | .act i c => c.aborts = true → ∀ f ∈ w.pool[i]?, f.drives = true → f.callsSpaces = true
  | .env _ => True

instance : DecidableRel SpacesErrors
  | w, .act i c => inferInstanceAs <| Decidable <|
      c.aborts = true → ∀ f ∈ w.pool[i]?, f.drives = true → f.callsSpaces = true
  | _, .env _ => inferInstanceAs (Decidable True)

theorem frames_of_aborts (h : frame.step env s c = some e) (ha : c.aborts = true)
    (hc : frame.carries = true) : e.frames = [] := by
  cases c with
  | raise =>
    cases h
    cases frame with
    | processChunk => cases hc
    | _ => rfl
  | timeout => cases h; rfl
  | _ => cases ha

theorem relieved_of_carried (hf : (workers env).fire v m = some v')
    (h : v'.shared.db.batch.status = .running → ∃ f ∈ v'.pool, f.carries = true) :
    Relieved v m := by
  cases m with
  | act i c =>
    intro ha hr f hk hc
    obtain ⟨frame, r, hk', hs, rfl⟩ := fire_act_iff.mp hf
    obtain ⟨e, he, rfl⟩ := step_iff.mp hs
    obtain rfl := Option.some.inj (hk.symm.trans hk')
    dsimp only at h
    rw [shared_of_aborts he ha, frames_of_aborts he ha hc, List.append_nil] at h
    exact h hr
  | env => trivial

/-- In a run whose drivers abort in calls of the object store only: a running batch has a job
that carries it, in all states, if and only if every job that aborts leaves another one. It
then has a driver. -/
theorem finalize_errors_relieved_iff {ms : List Moves}
    (hrun : (workers env).run SpacesErrors (created env now) ms = some w) :
    ((workers env).Along (fun _ _ v => v.shared.db.batch.status = .running →
          ∃ f ∈ v.pool, f.carries = true) (created env now) ms ↔
        (workers env).Along (fun v m _ => Relieved v m) (created env now) ms) ∧
      ((workers env).Along (fun v m _ => Relieved v m) (created env now) ms →
        (workers env).Along (fun _ _ v => v.shared.db.batch.status = .running →
          ∃ f ∈ v.pool, f.drives = true) (created env now) ms) := by
  have hiff : (workers env).Along (fun _ _ v => v.shared.db.batch.status = .running →
        ∃ f ∈ v.pool, f.carries = true) (created env now) ms ↔
      (workers env).Along (fun v m _ => Relieved v m) (created env now) ms := by
    refine Along.congr (Q := fun v => (workers env).Reach SpacesErrors (created env now) v ∧
      (v.shared.db.batch.status = .running → ∃ f ∈ v.pool, f.carries = true))
      (.of_run hrun) ⟨.refl, by simp [created]⟩ fun v m v' hv hm hf => ⟨⟨?_, ?_⟩, ?_⟩
    · exact relieved_of_carried hf
    · exact fun hrelieved => (baton env).fire (rows_of_reach hv.1) hrelieved hv.2 hf
    · exact fun h => ⟨hv.1.step hm hf, h⟩
  refine ⟨hiff, fun h => (hiff.mpr h).mono fun _ _ v hv hr => ?_⟩
  obtain ⟨f, hm, hc⟩ := hv hr
  exact ⟨f, hm, Frame.drives_of_carries hc⟩

/-- The chunk's worker and the deferred poll both lead to a finalize_batch; the first one's
call raises. -/
def raisedRun : List Moves :=
  steps 0 7 ++ steps 1 3 ++ replied 1 0 true ++ replied 1 1 true ++
    steps 1 14 ++ [.act 1 (.raise "spaces")]

theorem finalize_errors_relieved_iff_once : ∃ w,
    (workers (twoPrompts 2 5)).run SpacesErrors (created (twoPrompts 2 5) 0) raisedRun = some w ∧
    ((workers (twoPrompts 2 5)).Along (fun _ _ v => v.shared.db.batch.status = .running →
          ∃ f ∈ v.pool, f.carries = true) (created (twoPrompts 2 5) 0) raisedRun ↔
        (workers (twoPrompts 2 5)).Along (fun v m _ => Relieved v m)
          (created (twoPrompts 2 5) 0) raisedRun) ∧
      ((workers (twoPrompts 2 5)).Along (fun v m _ => Relieved v m)
          (created (twoPrompts 2 5) 0) raisedRun →
        (workers (twoPrompts 2 5)).Along (fun _ _ v => v.shared.db.batch.status = .running →
          ∃ f ∈ v.pool, f.drives = true) (created (twoPrompts 2 5) 0) raisedRun) := by
  have hrun : ((workers (twoPrompts 2 5)).run SpacesErrors (created (twoPrompts 2 5) 0)
      raisedRun).isSome := by decide +kernel
  obtain ⟨w, hw⟩ := Option.isSome_iff_exists.mp hrun
  exact ⟨w, hw, finalize_errors_relieved_iff hw⟩

/-- The poll's finalize_batch raises too: no job is left, the batch is running for good. -/
theorem finalize_errors_strand_batch : ∃ w,
    (workers (twoPrompts 2 5)).Reach SpacesErrors (created (twoPrompts 2 5) 0) w ∧
    w.shared.db.batch.status = .running ∧ ¬ ∃ f ∈ w.pool, f.drives = true := by
  have hrun : ((workers (twoPrompts 2 5)).run SpacesErrors (created (twoPrompts 2 5) 0)
      (raisedRun ++ steps 0 7 ++ [.act 0 (.raise "spaces")])).map
        (fun w => (w.shared.db.batch.status, w.pool.any Frame.drives)) =
      some (.running, false) := by decide +kernel
  obtain ⟨w, hw, hseen⟩ := Option.map_eq_some_iff.mp hrun
  obtain ⟨hr, hnone⟩ := Prod.mk.inj hseen
  exact ⟨w, .of_run hw, hr, by simpa using hnone⟩

end BatchInference
