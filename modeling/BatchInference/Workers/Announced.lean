import BatchInference.Workers.Drivers

/-!
# Who announces a finished batch

The three places that commit `completed` or `failed` enqueue the webhook in the next
statement. A job that is lost between the two does not come back to it: run again, it finds
the status terminal and returns. Until the first announcement a finished batch has a job at
such a statement, exactly as long as none of them is lost alone.
-/

namespace BatchInference

open JobPool System

variable {env : Env} {now : Int} {s : Shared} {frame : Frame} {c : Choice} {e : Effect Frame}
  {v v' w : World Shared Frame} {m : Moves}

/-- The jobs that work on the batch itself. -/
def Job.works : Job → Bool
  | .orchestrateBatch | .processChunk .. | .checkBatchCompletion _ | .finalizeBatch => true
  | .deliverBatchWebhook .. | .reclaimLeasesCron | .cancelBatch => false

def Job.announces : Job → Bool
  | .deliverBatchWebhook .. => true
  | _ => false

namespace Frame

def works : Frame → Bool
  | .queued job => job.works
  | .orchestrateBatch _ | .processChunk .. | .checkBatchCompletion .. | .finalizeBatch _ => true
  | .deliverBatchWebhook .. | .cancelBatch _ => false

/-- The job has committed a result and stands before the `enqueue_job` that announces it. -/
def announcing : Frame → Bool
  | .processChunk _ _ (.handler _ _ .announceFailed) => true
  | .checkBatchCompletion _ .announceFailed => true
  | .finalizeBatch .announce => true
  | _ => false

theorem works_of_announcing (h : frame.announcing = true) : frame.works = true := by
  cases frame with
  | processChunk | checkBatchCompletion | finalizeBatch => rfl
  | _ => cases h

end Frame

/-- The job does not reach its next statement: it raises, or its worker dies. -/
def Choice.kills : Choice → Bool
  | .raise _ | .crash | .timeout => true
  | _ => false

def BatchStatus.finished : BatchStatus → Bool
  | .completed | .failed => true
  | _ => false

/-- The jobs that a move enqueues. -/
def jobsOf (env : Env) (w : World Shared Frame) : Moves → List Job
  | .act i c => (w.pool[i]?.bind fun frame => frame.step env w.shared c).elim [] (·.jobs)
  | .env (.arrive job) => [job]
  | .env (.tick _) => []

def Announces (env : Env) (w : World Shared Frame) (m : Moves) : Prop :=
  ∃ job ∈ jobsOf env w m, job.announces = true

instance (env : Env) : DecidableRel fun w m => ¬ Announces env w m := fun w m =>
  inferInstanceAs (Decidable (¬ ∃ job ∈ jobsOf env w m, job.announces = true))

/-! ## A result and its announcement -/

theorem next_of_commit {commit : Commit} (h : frame.step env s c = some e)
    (hc : e.commit = some commit) : frame.next env s = some e := by
  cases turns_of_step h with
  | next h => exact h
  | _ => cases hc

theorem Commit.statusChange_flush {loaded new : Batch} {change : BatchStatus × BatchStatus}
    (h : (if new.status = loaded.status then none else some (loaded.status, new.status)) =
      some change) : new.status ≠ loaded.status ∧ new.status = change.2 := by
  split at h
  · cases h
  · cases h
    exact ⟨‹_›, rfl⟩

/-- Who commits a result stands before its announcement. -/
theorem announcing_of_finished (h : frame.step env s c = some e)
    (hbefore : s.db.batch.status.finished = false)
    (hafter : (e.shared s).db.batch.status.finished = true) :
    ∃ f ∈ e.frames, f.announcing = true := by
  cases hc : e.commit with
  | none =>
    rw [show (e.shared s).db = s.db by simp [Effect.shared, hc], hbefore] at hafter
    cases hafter
  | some commit =>
    have hnext := next_of_commit h hc
    rw [show (e.shared s).db = commit.apply s.db by simp [Effect.shared, hc],
      Commit.batch_apply, commit.status_onBatch] at hafter
    cases hs : commit.statusChange with
    | none => simp [hs, hbefore] at hafter
    | some change =>
      rw [hs, Option.elim_some] at hafter
      have hcommits := commits_of_step h hc
      cases hcommits with
      | giveUp spent running =>
        simp only [Frame.next, ProcessChunk.step, ProcessChunk.Handler.step, if_pos spent,
          if_pos running] at hnext
        cases hnext
        exact ⟨_, List.mem_cons_self, rfl⟩
      | exhausted hx =>
        simp only [Frame.next, CheckCompletion.step, if_pos hx] at hnext
        cases hnext
        exact ⟨_, List.mem_cons_self, rfl⟩
      | finalize =>
        cases hnext
        exact ⟨_, List.mem_cons_self, rfl⟩
      | orchestrate =>
        rw [← (Commit.statusChange_flush hs).2] at hafter
        cases hafter
      | cancel =>
        obtain ⟨hne, hnew⟩ := Commit.statusChange_flush hs
        rw [← hnew] at hafter
        unfold cancelBatch at hne hafter
        split at hne
        · exact absurd rfl hne
        · rw [if_neg ‹_›] at hafter
          cases hafter
      | retry | checked | webhook => exact absurd rfl (Commit.statusChange_flush hs).1
      | _ => cases hs

theorem announces_of_next (h : frame.next env s = some e) (ha : frame.announcing = true) :
    ∃ job ∈ e.jobs, job.announces = true := by
  cases frame with
  | processChunk i deferBy pc =>
    cases pc with
    | handler chunk exc pc =>
      cases pc with
      | announceFailed => cases h; exact ⟨_, List.mem_cons_self, rfl⟩
      | _ => cases ha
    | _ => cases ha
  | checkBatchCompletion deferBy pc =>
    cases pc with
    | announceFailed => cases h; exact ⟨_, List.mem_cons_self, rfl⟩
    | _ => cases ha
  | finalizeBatch pc =>
    cases pc with
    | announce => cases h; exact ⟨_, List.mem_cons_self, rfl⟩
    | _ => cases ha
  | _ => cases ha

theorem kills_of_step (h : frame.step env s c = some e) (ha : frame.announcing = true)
    (hne : ∀ job ∈ e.jobs, job.announces = false) : c.kills = true := by
  cases turns_of_step h with
  | next h =>
    obtain ⟨job, hm, hj⟩ := announces_of_next h ha
    simp [hne job hm] at hj
  | look | reply | posted | backoff => cases ha
  | raise | crash | timeout => rfl

/-! ## Runs without an announcement -/

/-- A job that is lost before its announcement leaves another one that is to announce. -/
def AnnouncersRelieved (w : World Shared Frame) : Moves → Prop
  | .act i c => c.kills = true → w.shared.db.batch.status.finished = true →
    ∀ f ∈ w.pool[i]?, f.announcing = true → ∃ g ∈ others w i, g.announcing = true
  | .env _ => True

instance : DecidableRel AnnouncersRelieved
  | w, .act i c => inferInstanceAs <| Decidable <|
      c.kills = true → w.shared.db.batch.status.finished = true →
        ∀ f ∈ w.pool[i]?, f.announcing = true → ∃ g ∈ others w i, g.announcing = true
  | _, .env _ => inferInstanceAs (Decidable True)

/-- A finished batch has a job that is about to announce it. -/
def AnnouncerLeft (w : World Shared Frame) : Prop :=
  w.shared.db.batch.status.finished = true → ∃ f ∈ w.pool, f.announcing = true

theorem announcers (env : Env) : (workers env).Baton
    (fun w m => AnnouncersRelieved w m ∧ ¬ Announces env w m) (fun _ => True)
    (fun s => s.db.batch.status.finished = true) (fun f => f.announcing = true) := by
  refine ⟨?_, ?_⟩
  · intro w i c k s ks _ ⟨hrelieved, hnot⟩ hk hstep hafter
    obtain ⟨e, he, hr⟩ := step_iff.mp hstep
    cases hr
    cases hbefore : w.shared.db.batch.status.finished with
    | false => exact .inr (.inl (announcing_of_finished he hbefore hafter))
    | true =>
      cases ha : k.announcing with
      | false => exact .inl ⟨rfl, by simp⟩
      | true =>
        have hkills : c.kills = true := by
          refine kills_of_step he ha fun job hm => ?_
          by_contra hj
          exact hnot ⟨job, by simpa [jobsOf, hk, he] using hm, by simpa using hj⟩
        exact .inr (.inr (hrelieved hkills hbefore k hk ha))
  · intro w e s ks _ _ henv hafter
    cases e <;> cases henv <;> exact .inl hafter

theorem frames_of_kills (h : frame.step env s c = some e) (hk : c.kills = true)
    (ha : frame.announcing = true) : e.shared s = s ∧ ∀ f ∈ e.frames, f.announcing = false := by
  cases c with
  | raise exc =>
    cases h
    refine ⟨rfl, fun f hf => ?_⟩
    cases frame with
    | processChunk i deferBy pc =>
      cases pc with
      | handler => cases hf
      | _ => cases ha
    | checkBatchCompletion | finalizeBatch => cases hf
    | _ => cases ha
  | crash =>
    cases h
    refine ⟨rfl, fun f hf => ?_⟩
    cases frame with
    | processChunk | checkBatchCompletion | finalizeBatch =>
      obtain rfl := List.mem_singleton.mp hf
      rfl
    | _ => cases ha
  | timeout => cases h; exact ⟨rfl, fun f hf => nomatch hf⟩
  | _ => cases hk

theorem announcersRelieved_of_left (hf : (workers env).fire v m = some v')
    (h : AnnouncerLeft v') : AnnouncersRelieved v m := by
  cases m with
  | act i c =>
    intro hkills hfinished f hk ha
    obtain ⟨frame, r, hk', hs, rfl⟩ := fire_act_iff.mp hf
    obtain ⟨e, he, rfl⟩ := step_iff.mp hs
    obtain rfl := Option.some.inj (hk.symm.trans hk')
    obtain ⟨hshared, hframes⟩ := frames_of_kills he hkills ha
    obtain ⟨g, hg, hga⟩ := h (by rwa [hshared])
    rcases List.mem_append.mp hg with hg | hg
    · exact ⟨g, hg, hga⟩
    · simp [hframes g hg] at hga
  | env => trivial

/-- A finished batch whose jobs have all ended has been announced, if every job that was
lost before its announcement left another one. And in a run without an announcement this
is exactly what leaves a job to announce the batch, in all its states. -/
theorem announced_iff {ms : List Moves}
    (hrun : (workers env).run (fun _ _ => True) (created env now) ms = some w) :
    ((workers env).Along (fun v m _ => AnnouncersRelieved v m) (created env now) ms →
        w.shared.db.batch.status.finished = true → (∀ f ∈ w.pool, f.works = false) →
        (workers env).Sometime (Announces env) (created env now) ms) ∧
      (¬ (workers env).Sometime (Announces env) (created env now) ms →
        ((workers env).Along (fun _ _ v => AnnouncerLeft v) (created env now) ms ↔
          (workers env).Along (fun v m _ => AnnouncersRelieved v m) (created env now) ms)) := by
  have hleft (hnot : ¬ (workers env).Sometime (Announces env) (created env now) ms) :
      (workers env).Along (fun _ _ v => AnnouncerLeft v) (created env now) ms ↔
        (workers env).Along (fun v m _ => AnnouncersRelieved v m) (created env now) ms := by
    refine Along.congr (Q := AnnouncerLeft) (.of_not_sometime hnot)
      (by simp [AnnouncerLeft, created, BatchStatus.finished]) ?_
    intro v m v' hv hm hf
    exact ⟨⟨announcersRelieved_of_left hf,
      fun hrelieved => (announcers env).fire trivial ⟨hrelieved, hm⟩ hv hf⟩, id⟩
  refine ⟨fun hrelieved hfinished hidle => ?_, hleft⟩
  by_contra hnot
  obtain ⟨f, hm, ha⟩ := ((hleft hnot).mpr hrelieved).last
    (by simp [AnnouncerLeft, created, BatchStatus.finished]) hrun hfinished
  simpa [hidle f hm] using Frame.works_of_announcing ha

/-- One chunk of two prompts, and a receiver. -/
def hooked : Env :=
  { twoPrompts 2 5 with
    spec := { (twoPrompts 2 5).spec with webhookUrl := some "https://example.com/hooks/batch" } }

/-- Up to where finalize_batch has concatenated the chunks. -/
def concatenatedRun : List Moves :=
  steps 0 7 ++ steps 1 3 ++ replied 1 0 true ++ replied 1 1 true ++
    steps 1 15

/-- The worker dies there, and the job is run again. -/
theorem announced_iff_crashed : ∃ w,
    (workers hooked).run (fun _ _ => True) (created hooked 0)
      (concatenatedRun ++ [.act 1 .crash] ++ steps 1 7 ++ steps 0 1) = some w ∧
    w.shared.db.batch.status.finished = true ∧ (∀ f ∈ w.pool, f.works = false) ∧
    (workers hooked).Sometime (Announces hooked) (created hooked 0)
      (concatenatedRun ++ [.act 1 .crash] ++ steps 1 7 ++ steps 0 1) := by
  have hrun : ((workers hooked).run (fun _ _ => True) (created hooked 0)
      (concatenatedRun ++ [.act 1 .crash] ++ steps 1 7 ++ steps 0 1)).map
        (fun w => (w.shared.db.batch.status.finished, w.pool.any Frame.works)) =
      some (true, false) := by decide +kernel
  have hrelieved : ((workers hooked).run AnnouncersRelieved (created hooked 0)
      (concatenatedRun ++ [.act 1 .crash] ++ steps 1 7 ++ steps 0 1)).isSome := by
    decide +kernel
  obtain ⟨w, hw, hseen⟩ := Option.map_eq_some_iff.mp hrun
  obtain ⟨v, hv⟩ := Option.isSome_iff_exists.mp hrelieved
  obtain ⟨hfinished, hidle⟩ := Prod.mk.inj hseen
  rw [List.any_eq_false] at hidle
  simp only [Bool.not_eq_true] at hidle
  exact ⟨w, hw, hfinished, hidle, (announced_iff hw).1 (.of_run hv) hfinished hidle⟩

/-- The worker dies after the commit of `completed`; run again, the job finds it and returns.
No job is left, and nobody has announced the batch. -/
theorem completed_batch_unannounced : ∃ ms w,
    hooked.spec.webhookUrl = some "https://example.com/hooks/batch" ∧
    (workers hooked).run (fun _ _ => True) (created hooked 0) ms = some w ∧
    w.shared.db.batch.status = .completed ∧ w.pool.length = 0 ∧
    ¬ (workers hooked).Sometime (Announces hooked) (created hooked 0) ms := by
  have hrun : ((workers hooked).run (fun _ _ => True) (created hooked 0)
      (concatenatedRun ++ steps 1 3 ++ [.act 1 .crash] ++ steps 1 1 ++ steps 0 1)).map
        (fun w => (w.shared.db.batch.status, w.pool.length)) = some (.completed, 0) := by
    decide +kernel
  have hquiet : ((workers hooked).run (fun v m => ¬ Announces hooked v m) (created hooked 0)
      (concatenatedRun ++ steps 1 3 ++ [.act 1 .crash] ++ steps 1 1 ++ steps 0 1)).isSome := by
    decide +kernel
  obtain ⟨w, hw, hseen⟩ := Option.map_eq_some_iff.mp hrun
  obtain ⟨v, hv⟩ := Option.isSome_iff_exists.mp hquiet
  obtain ⟨hcompleted, hidle⟩ := Prod.mk.inj hseen
  exact ⟨_, w, rfl, hw, hcompleted, hidle, Sometime.not_of_run hv⟩

end BatchInference
