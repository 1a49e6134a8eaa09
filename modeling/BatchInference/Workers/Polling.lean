import BatchInference.Workers.Announced

/-!
# How many polls are outstanding

A chain of deferred checks is to follow the orchestration, each enqueued by the one before.
The check that a success enqueues looks the same to the code: if it finds a chunk that is
pending or leased, it enqueues the pending ones again and then a poll of its own, and the batch
is followed by one more chain. So does finalize_batch, if it finds the chunks unfinished again.
While neither happens, one poll at most is outstanding.
-/

namespace BatchInference

open JobPool System

variable {env : Env} {now : Int} {s s' : Shared} {frame : Frame} {c : Choice} {e : Effect Frame}
  {v v' w : World Shared Frame} {m : Moves}

/-! ## Who enqueues what -/

/-- The job enqueues this one in its next step. -/
inductive Enqueues : Frame → Job → Prop where
  | chunk {i : Nat} {chunkIds : List Nat} :
      Enqueues (.orchestrateBatch (.enqueueing (i :: chunkIds))) (.processChunk i 0)
  | firstPoll : Enqueues (.orchestrateBatch (.enqueueing [])) (.checkBatchCompletion 2)
  | nudge {i deferBy : Nat} {chunk : BatchChunk} :
      Enqueues (.processChunk i deferBy (.body chunk .succeeded)) (.checkBatchCompletion 0)
  | chunkFailed {i deferBy : Nat} {chunk : BatchChunk} {exc : String} :
      Enqueues (.processChunk i deferBy (.handler chunk exc .announceFailed))
        (.deliverBatchWebhook .failed 0)
  | again {i deferBy : Nat} {chunk : BatchChunk} {exc : String} :
      Enqueues (.processChunk i deferBy (.handler chunk exc .reEnqueue)) (.processChunk i 2)
  | batchFailed {deferBy : Nat} :
      Enqueues (.checkBatchCompletion deferBy .announceFailed) (.deliverBatchWebhook .failed 0)
  | finalize {deferBy : Nat} :
      Enqueues (.checkBatchCompletion deferBy .enqueueFinalize) .finalizeBatch
  | lost {deferBy : Nat} {unleased : List (Nat × BatchChunk)} {chunk : BatchChunk}
      {todo : List BatchChunk} :
      Enqueues (.checkBatchCompletion deferBy (.requeueing unleased (chunk :: todo)))
        (.processChunk chunk.chunkIndex 0)
  | poll {deferBy : Nat} :
      Enqueues (.checkBatchCompletion deferBy .repoll) (.checkBatchCompletion 5)
  | incomplete : Enqueues (.finalizeBatch .incomplete) (.checkBatchCompletion 2)
  | completed : Enqueues (.finalizeBatch .announce) (.deliverBatchWebhook .completed 0)
  | redelivery {event : Event} {deferBy attempts : Nat} {delay : ℚ} :
      Enqueues (.deliverBatchWebhook event deferBy (.backingOff attempts))
        (.deliverBatchWebhook event (DeliverWebhook.deferBy delay))

theorem ProcessChunk.Body.jobs_of_step {i : Nat} {chunk : BatchChunk} {pc : Body}
    {e : Effect Body} (h : pc.step env s i chunk = some e) :
    e.jobs = [] ∨ pc = .succeeded ∧ e.jobs = [.checkBatchCompletion 0] := by
  cases pc with
  | reading | gathering =>
    obtain ⟨_, -, h⟩ := Option.bind_eq_some_iff.mp h
    cases h
    exact .inl rfl
  | cancelling | written =>
    obtain rfl := Option.some.inj h
    left
    split <;> rfl
  | succeeded => cases h; exact .inr ⟨rfl, rfl⟩
  | _ => cases h; exact .inl rfl

theorem jobs_start (env : Env) (s : Shared) (job : Job) : (Frame.start env s job).jobs = [] := by
  cases job with
  | orchestrateBatch =>
    simp only [Frame.start, Orchestrate.start]
    split <;> rfl
  | processChunk =>
    simp only [Frame.start, ProcessChunk.start]
    split <;> rfl
  | checkBatchCompletion =>
    simp only [Frame.start, CheckCompletion.start]
    split <;> rfl
  | finalizeBatch =>
    simp only [Frame.start, Finalize.start]
    split <;> rfl
  | deliverBatchWebhook =>
    simp only [Frame.start, DeliverWebhook.start]
    split <;> rfl
  | reclaimLeasesCron | cancelBatch => rfl

theorem enqueues_of_next (h : frame.next env s = some e) : ∀ job ∈ e.jobs, Enqueues frame job := by
  intro job hm
  cases frame with
  | queued job =>
    cases h
    rw [jobs_start] at hm
    cases hm
  | orchestrateBatch pc =>
    cases h
    cases pc with
    | gotBatch | reclaimed =>
      simp only [Effect.jobs_map, Orchestrate.step] at hm
      split at hm <;> cases hm
    | planned => cases hm
    | enqueueing chunkIds =>
      cases chunkIds <;> obtain rfl := List.mem_singleton.mp hm
      · exact .firstPoll
      · exact .chunk
  | processChunk i deferBy pc =>
    obtain ⟨e₁, h₁, rfl⟩ := Option.map_eq_some_iff.mp h
    cases pc with
    | gotBatch =>
      obtain rfl := Option.some.inj h₁
      split at hm
      · cases hm
      · split at hm <;> cases hm
    | leased => cases h₁; cases hm
    | body chunk pc =>
      obtain ⟨e₂, h₂, rfl⟩ := Option.map_eq_some_iff.mp h₁
      rcases ProcessChunk.Body.jobs_of_step h₂ with hjobs | ⟨rfl, hjobs⟩
      · simp [hjobs] at hm
      · obtain rfl : job = .checkBatchCompletion 0 := by simpa [hjobs] using hm
        exact .nudge
    | handler chunk exc pc =>
      cases h₁
      cases pc with
      | failing =>
        simp only [Effect.jobs_map, ProcessChunk.Handler.step] at hm
        split at hm <;> cases hm
      | loadedChunk => cases hm
      | loadedBatch =>
        simp only [Effect.jobs_map, ProcessChunk.Handler.step] at hm
        split_ifs at hm <;> cases hm
      | announceFailed => obtain rfl := List.mem_singleton.mp hm; exact .chunkFailed
      | reEnqueue => obtain rfl := List.mem_singleton.mp hm; exact .again
  | checkBatchCompletion deferBy pc =>
    cases h
    cases pc with
    | counted =>
      simp only [Effect.jobs_map, CheckCompletion.step] at hm
      split_ifs at hm <;> cases hm
    | requeueing unleased todo =>
      cases todo with
      | nil => cases hm
      | cons => obtain rfl := List.mem_singleton.mp hm; exact .lost
    | announceFailed => obtain rfl := List.mem_singleton.mp hm; exact .batchFailed
    | enqueueFinalize => obtain rfl := List.mem_singleton.mp hm; exact .finalize
    | repoll => obtain rfl := List.mem_singleton.mp hm; exact .poll
    | gotBatch | reclaimed | selectPending => cases hm
  | finalizeBatch pc =>
    obtain ⟨e₁, h₁, rfl⟩ := Option.map_eq_some_iff.mp h
    cases pc with
    | gotBatch =>
      simp only [Finalize.step] at h₁
      split at h₁ <;> cases h₁ <;> cases hm
    | gathering snap keys parts =>
      cases keys with
      | nil => cases h₁; cases hm
      | cons key keys =>
        obtain ⟨_, -, h₁⟩ := Option.bind_eq_some_iff.mp h₁
        cases h₁
        cases hm
    | incomplete => cases h₁; obtain rfl := List.mem_singleton.mp hm; exact .incomplete
    | announce => cases h₁; obtain rfl := List.mem_singleton.mp hm; exact .completed
    | concatenated | committing => cases h₁; cases hm
  | deliverBatchWebhook event deferBy pc =>
    obtain ⟨e₁, h₁, rfl⟩ := Option.map_eq_some_iff.mp h
    cases pc with
    | posted => cases h₁; cases hm
    | posting | backingOff => cases h₁
  | cancelBatch => cases h; cases hm

theorem enqueues_of_step (h : frame.step env s c = some e) :
    ∀ job ∈ e.jobs, Enqueues frame job := by
  cases turns_of_step h with
  | next h => exact enqueues_of_next h
  | backoff =>
    intro job hm
    obtain rfl := List.mem_singleton.mp hm
    exact .redelivery
  | look | reply | posted | raise | crash | timeout => intro job hm; cases hm

/-! ## Polls -/

/-- A check that has been deferred, or the orchestration that is to enqueue the first one. -/
def Job.leadsPolls : Job → Bool
  | .orchestrateBatch => true
  | .checkBatchCompletion deferBy => deferBy ≠ 0
  | _ => false

namespace Frame

/-- A poll, in the queue or under way. -/
def polls : Frame → Bool
  | .queued (.checkBatchCompletion deferBy) | .checkBatchCompletion deferBy _ => deferBy ≠ 0
  | _ => false

/-- A check that a success has enqueued, on its way to the pending chunks and to a poll of its
own. -/
def startsPolling : Frame → Bool
  | .checkBatchCompletion 0 pc => match pc with
    | .counted _ _ counts => 0 < counts.pendingish
    | .selectPending | .requeueing .. | .repoll => true
    | _ => false
  | _ => false

/-- Such a check, when it is about to count the chunks. -/
def countsNext : Frame → Bool
  | .checkBatchCompletion 0 (.reclaimed ..) => true
  | _ => false

/-- A finalize_batch that is about to load the chunks. -/
def loadsChunks : Frame → Bool
  | .finalizeBatch (.gotBatch ..) => true
  | _ => false

end Frame

/-- One poll at most is outstanding, and no success has started another chain. -/
def PollsOnce (w : World Shared Frame) : Prop :=
  w.pool.countP Frame.polls ≤ 1 ∧ ∀ f ∈ w.pool, f.startsPolling = false

/-- Neither pending nor leased: succeeded, or failed for good. -/
def BatchChunk.done (chunk : BatchChunk) : Bool :=
  chunk.status ≠ .pending && chunk.status ≠ .leased

def AllSucceeded (db : Db) : Prop := db.chunks ≠ [] ∧ ∀ c ∈ db.chunks, c.status = .succeeded

instance (db : Db) : Decidable (AllSucceeded db) :=
  inferInstanceAs (Decidable (db.chunks ≠ [] ∧ ∀ c ∈ db.chunks, c.status = .succeeded))

/-- If the next statement is one of those that `reads` tells, it finds the tables `good`. -/
def FindsNext (reads : Frame → Bool) (good : Db → Prop) (w : World Shared Frame) : Moves → Prop
  | .act i .next => ∀ f ∈ w.pool[i]?, reads f = true → good w.shared.db
  | _ => True

variable {reads : Frame → Bool} {good : Db → Prop}

instance [DecidablePred good] : DecidableRel (FindsNext reads good)
  | w, .act i .next =>
    inferInstanceAs (Decidable (∀ f ∈ w.pool[i]?, reads f = true → good w.shared.db))
  | _, .act _ (.look _) | _, .act _ (.reply ..) | _, .act _ (.posted _) | _, .act _ (.backoff _)
  | _, .act _ (.raise _) | _, .act _ .crash | _, .act _ .timeout | _, .env _ =>
    inferInstanceAs (Decidable True)

theorem findsNext_of_forall (h : ∀ i f, m = .act i .next → w.pool[i]? = some f →
    reads f = true → good w.shared.db) : FindsNext reads good w m := by
  cases m with
  | act i c =>
    cases c with
    | next => exact fun f hk hreads => h i f rfl hk hreads
    | _ => trivial
  | env => trivial

/-- A check that a success has enqueued counts the chunks when all of them are done. -/
def CountsLast : World Shared Frame → Moves → Prop :=
  FindsNext Frame.countsNext fun db => ∀ chunk ∈ db.chunks, chunk.done = true

instance : DecidableRel CountsLast :=
  inferInstanceAs <| DecidableRel <|
    FindsNext Frame.countsNext fun db => ∀ chunk ∈ db.chunks, chunk.done = true

/-- A finalize_batch that loads the chunks finds all of them succeeded. -/
def FinalizesWhole : World Shared Frame → Moves → Prop := FindsNext Frame.loadsChunks AllSucceeded

instance : DecidableRel FinalizesWhole :=
  inferInstanceAs (DecidableRel (FindsNext Frame.loadsChunks AllSucceeded))

theorem Frame.exists_of_countsNext (h : frame.countsNext = true) :
    ∃ loaded t, frame = .checkBatchCompletion 0 (.reclaimed loaded t) := by
  unfold countsNext at h
  split at h
  · exact ⟨_, _, rfl⟩
  · cases h

theorem Frame.exists_of_loadsChunks (h : frame.loadsChunks = true) :
    ∃ loaded unfinished, frame = .finalizeBatch (.gotBatch loaded unfinished) := by
  unfold loadsChunks at h
  split at h
  · exact ⟨_, _, rfl⟩
  · cases h

theorem Frame.leads_of_polls (h : frame.polls = true) : frame.job.leadsPolls = true := by
  cases frame with
  | queued job =>
    cases job with
    | checkBatchCompletion => exact h
    | _ => cases h
  | checkBatchCompletion => exact h
  | _ => cases h

/-- A job that has enqueued a poll has ended. -/
theorem ended_of_enqueues (h : frame.step env s c = some e) {job : Job} (hm : job ∈ e.jobs)
    (hleads : job.leadsPolls = true) : e.next = none ∧ e.jobs = [job] := by
  have henqueues := enqueues_of_step h job hm
  cases turns_of_step h with
  | next h =>
    cases henqueues with
    | firstPoll | poll | incomplete => cases h; exact ⟨rfl, rfl⟩
    | _ => cases hleads
  | backoff => cases henqueues; cases hleads
  | look | reply | posted | raise | crash | timeout => cases hm

theorem countP_frames_le (h : frame.step env s c = some e)
    (hstarts : frame.startsPolling = false) (hincomplete : frame ≠ .finalizeBatch .incomplete) :
    e.frames.countP (fun f => f.job.leadsPolls) ≤ (frame.job.leadsPolls).toNat := by
  rw [Effect.frames, List.countP_append, List.countP_map]
  by_cases hjobs : ∃ job ∈ e.jobs, job.leadsPolls = true
  · obtain ⟨job, hm, hleads⟩ := hjobs
    obtain ⟨hnext, hone⟩ := ended_of_enqueues h hm hleads
    have hframe : frame.job.leadsPolls = true := by
      cases enqueues_of_step h job hm with
      | firstPoll => rfl
      | @poll deferBy =>
        cases deferBy with
        | zero => cases hstarts
        | succ => rfl
      | incomplete => exact absurd rfl hincomplete
      | _ => cases hleads
    rw [hnext, hone, hframe]
    simp [Frame.job, hleads]
  · have hnone : e.jobs.countP ((fun f => f.job.leadsPolls) ∘ Frame.queued) = 0 :=
      List.countP_eq_zero.mpr fun job hm hleads => hjobs ⟨job, hm, hleads⟩
    rw [hnone, Nat.add_zero]
    cases hnext : e.next with
    | none => exact Nat.zero_le _
    | some f =>
      have hjob : f.job = frame.job := job_of_step h hnext
      rw [Option.toList_some, List.countP_singleton, hjob]
      cases frame.job.leadsPolls <;> simp

/-! ## Runs without faults -/

/-- No job raises or is killed, and nobody else but the cron job starts jobs of the batch. -/
def FaultFree : World Shared Frame → Moves → Prop
  | _, .act _ c => c.kills = false
  | _, .env (.arrive job) => job = .reclaimLeasesCron
  | _, .env (.tick _) => True

instance : DecidableRel FaultFree
  | _, .act _ c => inferInstanceAs (Decidable (c.kills = false))
  | _, .env (.arrive job) => inferInstanceAs (Decidable (job = .reclaimLeasesCron))
  | _, .env (.tick _) => inferInstanceAs (Decidable True)

/-! ## One step -/

/-- How a job comes to be in check_batch_completion. -/
theorem checkBatchCompletion_of_step (h : frame.step env s c = some e) {deferBy : Nat}
    {pc : CheckCompletion.Pc} (hm : .checkBatchCompletion deferBy pc ∈ e.frames) :
    (frame = .queued (.checkBatchCompletion deferBy) ∧ ∃ loaded, pc = .gotBatch loaded) ∨
    ∃ pc₀, frame = .checkBatchCompletion deferBy pc₀ ∧ c = .next ∧
      (CheckCompletion.step s pc₀).next = some pc := by
  cases resumes_of_step h hm fun _ => nofun with
  | start hstart =>
    simp only [Frame.job, Frame.start, CheckCompletion.start] at hstart
    split at hstart <;> cases hstart
    exact .inl ⟨rfl, _, rfl⟩
  | next hnot h hnext hjob =>
    cases frame with
    | queued job => exact absurd rfl (hnot job)
    | checkBatchCompletion d pc₀ =>
      cases hjob
      cases h
      obtain ⟨pc', hpc, heq⟩ := Option.map_eq_some_iff.mp hnext
      cases heq
      exact .inr ⟨pc₀, rfl, rfl, hpc⟩
    | _ => cases hjob

theorem done_reclaim (now : Int) (chunk : BatchChunk) :
    (chunk.reclaim now).done = chunk.done := by
  rcases chunk.reclaim_eq_or now with hr | ⟨hleased, hr⟩ <;> rw [hr]
  simp [BatchChunk.done, BatchChunk.unlease, hleased]

theorem pendingish_eq_zero_iff (now : Int) {chunks : List BatchChunk} :
    (countByStatus (reclaimExpiredLeases now chunks)).pendingish = 0 ↔
      ∀ chunk ∈ chunks, chunk.done = true := by
  have hdone (chunk : BatchChunk) : chunk.done = true ↔
      (chunk.reclaim now).status ≠ .pending ∧ (chunk.reclaim now).status ≠ .leased := by
    rw [← done_reclaim now chunk]
    simp [BatchChunk.done]
  simp [StatusCounts.pendingish, countByStatus, reclaimExpiredLeases, List.countP_eq_zero, hdone,
    forall_and]

/-- What is known of a run in which one poll at most is outstanding: nobody else is going to
enqueue one. -/
structure Polled (w : World Shared Frame) : Prop where
  not_incomplete : .finalizeBatch .incomplete ∉ w.pool
  leads_le : w.pool.countP (fun f => f.job.leadsPolls) ≤ 1
  pollsOnce : PollsOnce w

/-- A check that does not start a chain is not followed by one that does, if it counts when all
chunks are done. -/
theorem startsPolling_frames (h : frame.step env s c = some e)
    (hstarts : frame.startsPolling = false)
    (hcounts : c = .next → frame.countsNext = true → ∀ chunk ∈ s.db.chunks, chunk.done = true) :
    ∀ f ∈ e.frames, f.startsPolling = false := by
  intro f hm
  cases f with
  | checkBatchCompletion deferBy pc =>
    cases deferBy with
    | zero =>
      rcases checkBatchCompletion_of_step h hm with ⟨-, loaded, rfl⟩ | ⟨pc₀, rfl, rfl, hpc⟩
      · rfl
      · cases pc₀ with
        | gotBatch => cases hpc; rfl
        | reclaimed loaded now =>
          cases hpc
          have hnone := (pendingish_eq_zero_iff now).mpr (hcounts rfl rfl)
          simp [Frame.startsPolling, hnone]
        | counted loaded now counts =>
          have hnone : ¬ 0 < counts.pendingish := by simpa [Frame.startsPolling] using hstarts
          simp only [CheckCompletion.step, if_neg hnone] at hpc
          split_ifs at hpc <;> cases hpc <;> rfl
        | announceFailed | enqueueFinalize => cases hpc
        | selectPending | requeueing | repoll => cases hstarts
    | succ => rfl
  | _ => rfl

theorem not_incomplete_frames (h : frame.step env s c = some e)
    (hwhole : c = .next → frame.loadsChunks = true → AllSucceeded s.db) :
    .finalizeBatch .incomplete ∉ e.frames := by
  intro hm
  cases resumes_of_step h hm fun _ => nofun with
  | start hstart =>
    simp only [Frame.job, Frame.start, Finalize.start] at hstart
    split at hstart <;> cases hstart
  | next hnot h hnext hjob =>
    cases frame with
    | queued job => exact absurd rfl (hnot job)
    | finalizeBatch pc =>
      obtain ⟨e₁, h₁, rfl⟩ := Option.map_eq_some_iff.mp h
      obtain ⟨pc', hpc, heq⟩ := Option.map_eq_some_iff.mp hnext
      cases heq
      cases pc with
      | gotBatch =>
        obtain ⟨hsome, hall⟩ := hwhole rfl rfl
        simp only [Finalize.step] at h₁
        split at h₁
        · rename_i hunfinished
          obtain hnil | ⟨chunk, hchunk, hstatus⟩ := hunfinished
          · exact hsome hnil
          · exact hstatus (hall chunk hchunk)
        · cases h₁
          cases hpc
      | _ =>
        have hgoes := Finalize.goes_of_step h₁ hpc
        generalize e₁.put = put at hgoes
        cases hgoes
    | _ => cases hjob

theorem leads_of_fire (h : Polled v) (hm : FaultFree v m)
    (hf : (workers env).fire v m = some v') :
    v'.pool.countP (fun f => f.job.leadsPolls) ≤ 1 := by
  refine le_trans ?_ h.leads_le
  cases m with
  | act i c =>
    obtain ⟨frame, r, hk, hs, rfl⟩ := fire_act_iff.mp hf
    obtain ⟨e, he, rfl⟩ := step_iff.mp hs
    have hmem := List.mem_of_getElem? hk
    have hstep := countP_frames_le he (h.pollsOnce.2 frame hmem) fun heq =>
      h.not_incomplete (heq ▸ hmem)
    rw [(perm_others hk).countP_eq, List.countP_append, List.countP_cons]
    refine Nat.add_le_add_left (hstep.trans ?_) _
    cases frame.job.leadsPolls <;> simp
  | env e =>
    cases e with
    | arrive job =>
      obtain rfl := hm
      cases hf
      simp [Frame.job, Job.leadsPolls]
    | tick seconds => cases hf; simp

/-- A check that counts while some chunk is not done starts a chain. -/
theorem countsLast_of_pollsOnce (hf : (workers env).fire v m = some v') (hpolls : PollsOnce v') :
    CountsLast v m := by
  refine findsNext_of_forall ?_
  rintro i f rfl hk hnext
  obtain ⟨frame, r, hk', hs, rfl⟩ := fire_act_iff.mp hf
  obtain rfl := Option.some.inj (hk.symm.trans hk')
  obtain ⟨e, he, rfl⟩ := step_iff.mp hs
  obtain ⟨loaded, t, rfl⟩ := Frame.exists_of_countsNext hnext
  cases he
  have hstarts := hpolls.2 _ (List.mem_append_right _ List.mem_cons_self)
  exact (pendingish_eq_zero_iff _).mp (by simpa [Frame.startsPolling] using hstarts)

theorem pollsOnce_of_fire (h : Polled v) (hm : FaultFree v m) (hcounts : CountsLast v m)
    (hf : (workers env).fire v m = some v') : PollsOnce v' := by
  refine ⟨(List.countP_mono_left fun f _ hp => Frame.leads_of_polls hp).trans
    (leads_of_fire h hm hf), ?_⟩
  rcases fire_cases hf with ⟨jobs, -, -, -, -, hpool⟩ |
    ⟨i, c, frame, e, rfl, hk, he, -, -, hpool⟩
  · exact forall_pool_of_queued hpool h.pollsOnce.2 fun _ => rfl
  · rw [hpool]
    have hmem := List.mem_of_getElem? hk
    refine List.forall_mem_append.mpr ⟨fun f hm => h.pollsOnce.2 f (mem_of_mem_others hm),
      startsPolling_frames he (h.pollsOnce.2 frame hmem) ?_⟩
    rintro rfl hnext
    exact hcounts _ hk hnext

theorem polled_of_fire (h : Polled v) (hm : FaultFree v m) (hwhole : FinalizesWhole v m)
    (hf : (workers env).fire v m = some v') (hpolls : PollsOnce v') : Polled v' := by
  refine ⟨?_, leads_of_fire h hm hf, hpolls⟩
  rcases fire_cases hf with ⟨jobs, -, -, -, -, hpool⟩ |
    ⟨i, c, frame, e, rfl, hk, he, -, -, hpool⟩
  · rw [hpool, List.mem_append, not_or]
    exact ⟨h.not_incomplete, by simp⟩
  · rw [hpool, List.mem_append, not_or]
    refine ⟨fun hm => h.not_incomplete (mem_of_mem_others hm), not_incomplete_frames he ?_⟩
    rintro rfl hloads
    exact hwhole _ hk hloads

theorem polled_created (env : Env) (now : Int) : Polled (created env now) := by
  refine ⟨?_, ?_, ?_, ?_⟩
  all_goals simp [created, Frame.polls, Frame.startsPolling, Frame.job, Job.leadsPolls]

/-! ## Every run -/

/-- In a run without faults there is one poll at most in all states, if no check that a success
has enqueued counts the chunks before all of them are done, and if finalize_batch finds them
succeeded. It must be so for the checks in any case. -/
theorem polls_once_of_countsLast {ms : List Moves}
    (hrun : (workers env).run FaultFree (created env now) ms = some w) :
    ((workers env).Along (fun v m _ => CountsLast v m ∧ FinalizesWhole v m) (created env now) ms →
      (workers env).Along (fun _ _ v => PollsOnce v) (created env now) ms) ∧
    ((workers env).Along (fun _ _ v => PollsOnce v) (created env now) ms →
      (workers env).Along (fun v m _ => CountsLast v m) (created env now) ms) := by
  constructor
  · intro hcond
    have hok : (workers env).Along (fun v m _ => FaultFree v m ∧ CountsLast v m ∧
        FinalizesWhole v m) (created env now) ms := (Along.of_run hrun).and hcond
    refine hok.of_invariant (polled_created env now) ?_
    intro v m v' hv ⟨hm, hcounts, hwhole⟩ hf
    have hpolls := pollsOnce_of_fire hv hm hcounts hf
    exact ⟨hpolls, polled_of_fire hv hm hwhole hf hpolls⟩
  · intro hpolls
    exact hpolls.imp fun v m v' => countsLast_of_pollsOnce

/-- A chunk for each prompt, both in the queue behind the first poll. -/
def bothQueued : List Moves := steps 0 6 ++ steps 1 1

/-- The job at position 0 processes its chunk up to the commit of its success. -/
def processedLast : List Moves :=
  steps 0 1 ++ steps 2 3 ++ replied 2 0 true ++ steps 2 6

/-- Both chunks have succeeded before either of them is announced. -/
def nudgedTwice : List Moves :=
  bothQueued ++ processedLast ++ processedLast ++ steps 1 2 ++ steps 2 5

theorem polls_once_nudgedTwice : ∃ w,
    (workers (twoPrompts 1 5)).run FaultFree (created (twoPrompts 1 5) 0) nudgedTwice = some w ∧
    (workers (twoPrompts 1 5)).Along (fun _ _ v => PollsOnce v) (created (twoPrompts 1 5) 0)
      nudgedTwice := by
  have hrun : ((workers (twoPrompts 1 5)).run FaultFree (created (twoPrompts 1 5) 0)
      nudgedTwice).isSome := by decide +kernel
  have hcond : ((workers (twoPrompts 1 5)).run (fun v m => CountsLast v m ∧ FinalizesWhole v m)
      (created (twoPrompts 1 5) 0) nudgedTwice).isSome := by decide +kernel
  obtain ⟨w, hw⟩ := Option.isSome_iff_exists.mp hrun
  obtain ⟨v, hv⟩ := Option.isSome_iff_exists.mp hcond
  exact ⟨w, hw, (polls_once_of_countsLast hw).1 (.of_run hv)⟩

/-- The first chunk succeeds, and its check finds the second one pending: it enqueues the chunk
again, and a second poll beside the first one. -/
theorem two_polls_outstanding : ∃ w,
    (workers (twoPrompts 1 5)).Reach FaultFree (created (twoPrompts 1 5) 0) w ∧
    ¬ PollsOnce w ∧ w.pool.countP Frame.polls = 2 := by
  have hrun : ((workers (twoPrompts 1 5)).run FaultFree (created (twoPrompts 1 5) 0)
      (bothQueued ++ processedLast ++ steps 2 8 ++ steps 3 1)).map
        (fun w => w.pool.countP Frame.polls) = some 2 := by decide +kernel
  obtain ⟨w, hw, hcount⟩ := Option.map_eq_some_iff.mp hrun
  refine ⟨w, .of_run hw, fun hpolls => ?_, hcount⟩
  have := hpolls.1
  omega

end BatchInference
