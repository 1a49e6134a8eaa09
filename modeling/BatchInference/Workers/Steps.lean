import BatchInference.Workers.Jobs

/-!
# What a step does

`Commits` and `Puts` say which jobs write what: an invariant of the stores is shown for each
of their cases. `Goes` says how a job goes on: an assertion of the jobs of one kind is shown
for each of its cases.
-/

namespace BatchInference

def Effect.shared (e : Effect Frame) (s : Shared) : Shared where
  db := e.commit.elim s.db (·.apply s.db)
  store := e.put.elim s.store (·.apply s.store)
  now := s.now

def Effect.frames (e : Effect Frame) : List Frame := e.next.toList ++ e.jobs.map .queued

theorem Effect.forall_frames {P : Frame → Prop} {e : Effect Frame}
    (hnext : ∀ frame ∈ e.next, P frame) (hqueued : ∀ job, P (.queued job)) :
    ∀ frame ∈ e.frames, P frame := by
  intro frame hm
  rcases List.mem_append.mp hm with hm | hm
  · exact hnext frame (by simpa using hm)
  · obtain ⟨job, -, rfl⟩ := List.mem_map.mp hm
    exact hqueued job

/-! ## Who writes what -/

/-- The job commits this in its next step. -/
inductive Commits (env : Env) (s : Shared) : Frame → Commit → Prop where
  | orchestrate {loaded : OpenBatch} {startedAt now : Int} {rows : List BatchChunk}
      {fresh : Bool} (unique : fresh = true → s.db.chunks = []) :
      Commits env s (.orchestrateBatch (.reclaimed loaded startedAt rows fresh now))
        (.orchestrate loaded.row (Orchestrate.run startedAt loaded.row)
          (if fresh then rows else []) now)
  | lease {i deferBy : Nat} {loaded : BatchChunk} {now : Int} :
      Commits env s (.processChunk i deferBy (.leased loaded now))
        (.lease i loaded (loaded.lease env now))
  | cancelRelease {i deferBy : Nat} {chunk row : BatchChunk} :
      Commits env s (.processChunk i deferBy (.body chunk (.cancelLoaded row)))
        (.cancelRelease i row row.cancelRelease)
  | success {i deferBy ok fail : Nat} {chunk row : BatchChunk} {counters : Counters} :
      Commits env s
        (.processChunk i deferBy (.body chunk (.recomputed row ok fail counters)))
        (.success i row (row.succeed i ok fail) counters)
  | giveUp {i deferBy : Nat} {chunk row : BatchChunk} {exc : String} {batch : Batch}
      (spent : env.chunkMaxAttempts ≤ row.attempts) (running : batch.status = .running) :
      Commits env s (.processChunk i deferBy (.handler chunk exc (.loadedBatch row batch)))
        (.failure i row (row.fail env exc) batch (ProcessChunk.failBatch s.now i exc batch))
  | retry {i deferBy : Nat} {chunk row : BatchChunk} {exc : String} {batch : Batch}
      (left : ¬ env.chunkMaxAttempts ≤ row.attempts) :
      Commits env s (.processChunk i deferBy (.handler chunk exc (.loadedBatch row batch)))
        (.failure i row (row.fail env exc) batch batch)
  | exhausted {deferBy : Nat} {loaded : OpenBatch} {now : Int} {counts : StatusCounts}
      (h : counts.exhausted = true) :
      Commits env s (.checkBatchCompletion deferBy (.counted loaded now counts))
        (.check loaded.row (CheckCompletion.failBatch s.now counts.failed loaded.row) now)
  | checked {deferBy : Nat} {loaded : OpenBatch} {now : Int} {counts : StatusCounts}
      (h : counts.exhausted = false) :
      Commits env s (.checkBatchCompletion deferBy (.counted loaded now counts))
        (.check loaded.row loaded.row now)
  | requeue {deferBy : Nat} {unleased : List (Nat × BatchChunk)} :
      Commits env s (.checkBatchCompletion deferBy (.requeueing unleased []))
        (.requeue unleased)
  | finalize {snap : Finalize.Snapshot} :
      Commits env s (.finalizeBatch (.committing snap))
        (.finalize snap.batch (Finalize.complete s.now snap.batch))
  | webhook {event : Event} {deferBy : Nat} {loaded : Batch} {ok : Bool} :
      Commits env s (.deliverBatchWebhook event deferBy (.posted loaded ok))
        (.webhook loaded (DeliverWebhook.attempt env ok loaded))
  | reclaim : Commits env s (.queued .reclaimLeasesCron) (.reclaim s.now)
  | cancel {loaded : Batch} :
      Commits env s (.cancelBatch loaded) (.cancel loaded (cancelBatch s.now loaded))

/-- The job puts this in its next step. -/
inductive Puts (env : Env) : Frame → Put → Prop where
  | chunk {i deferBy : Nat} {chunk : BatchChunk} {results : List Outcome} :
      Puts env (.processChunk i deferBy (.body chunk (.writing results)))
        (.rows (.chunk i) results)
  | results {snap : Finalize.Snapshot} {parts : List (List Outcome)} :
      Puts env (.finalizeBatch (.gathering snap [] parts)) (.rows .results parts.flatten)
  | manifest {snap : Finalize.Snapshot} :
      Puts env (.finalizeBatch (.concatenated snap))
        (.manifest (Finalize.manifestOf env snap.batch snap.rows))

variable {env : Env} {s : Shared} {frame : Frame} {c : Choice} {e : Effect Frame}

/-- The write that a step may make. -/
inductive Wrote (env : Env) (s : Shared) (frame : Frame) : Option Commit → Option Put → Prop where
  | nothing : Wrote env s frame none none
  | commit {commit : Commit} (h : Commits env s frame commit) : Wrote env s frame commit none
  | put {put : Put} (h : Puts env frame put) : Wrote env s frame none put

theorem ProcessChunk.look_cases {pc : Pc} {item : Nat} {e : Effect Pc}
    (h : look s item pc = some e) :
    ∃ chunk items seen outcomes, pc = .body chunk (.gathering items seen outcomes) ∧
      seen[item]? = some none ∧
      e = .goto (.body chunk
        (.gathering items (seen.set item (some s.db.batch.status)) outcomes)) := by
  cases pc with
  | body chunk pc =>
    obtain ⟨e₁, h₁, rfl⟩ := Option.map_eq_some_iff.mp h
    cases pc with
    | gathering items seen outcomes =>
      simp only [Body.look] at h₁
      split at h₁
      · rename_i hunseen
        cases h₁
        exact ⟨chunk, items, seen, outcomes, rfl, hunseen, rfl⟩
      · cases h₁
    | _ => cases h₁
  | _ => cases h

theorem ProcessChunk.reply_cases {pc : Pc} {item : Nat} {replies : List InferenceResult}
    {e : Effect Pc} (h : reply env item replies pc = some e) :
    ∃ chunk items seen outcomes value status outcome,
      pc = .body chunk (.gathering items seen outcomes) ∧
      items[item]? = some value ∧ seen[item]? = some (some status) ∧
      runOne env.intOfStr chunk.offset status value replies = some outcome ∧
      e = .goto (.body chunk (.gathering items seen (outcomes.set item (some outcome)))) := by
  cases pc with
  | body chunk pc =>
    obtain ⟨e₁, h₁, rfl⟩ := Option.map_eq_some_iff.mp h
    cases pc with
    | gathering items seen outcomes =>
      simp only [Body.reply] at h₁
      split at h₁
      · rename_i value status hvalue hseen _
        obtain ⟨outcome, ho, h₂⟩ := Option.bind_eq_some_iff.mp h₁
        cases h₂
        exact ⟨chunk, items, seen, outcomes, value, status, outcome, rfl, hvalue, hseen, ho, rfl⟩
      · cases h₁
    | _ => cases h₁
  | _ => cases h

/-- What a step is, by choice. -/
inductive Turns (env : Env) (s : Shared) : Frame → Choice → Effect Frame → Prop where
  | next {frame : Frame} {e : Effect Frame} (h : frame.next env s = some e) :
      Turns env s frame .next e
  | look {i deferBy : Nat} {chunk : BatchChunk} {items : List Json}
      {seen : List (Option BatchStatus)} {outcomes : List (Option Outcome)} {item : Nat}
      (hunseen : seen[item]? = some none) :
      Turns env s (.processChunk i deferBy (.body chunk (.gathering items seen outcomes)))
        (.look item)
        (.goto (.processChunk i deferBy (.body chunk
          (.gathering items (seen.set item (some s.db.batch.status)) outcomes))))
  | reply {i deferBy : Nat} {chunk : BatchChunk} {items : List Json}
      {seen : List (Option BatchStatus)} {outcomes : List (Option Outcome)} {item : Nat}
      {value : Json} {status : BatchStatus} {replies : List InferenceResult} {outcome : Outcome}
      (hvalue : items[item]? = some value) (hseen : seen[item]? = some (some status))
      (ho : runOne env.intOfStr chunk.offset status value replies = some outcome) :
      Turns env s (.processChunk i deferBy (.body chunk (.gathering items seen outcomes)))
        (.reply item replies)
        (.goto (.processChunk i deferBy
          (.body chunk (.gathering items seen (outcomes.set item (some outcome))))))
  | posted {event : Event} {deferBy : Nat} {loaded : Batch} {ok : Bool} :
      Turns env s (.deliverBatchWebhook event deferBy (.posting loaded)) (.posted ok)
        (.goto (.deliverBatchWebhook event deferBy (.posted loaded ok)))
  | backoff {event : Event} {deferBy attempts : Nat} {delay : ℚ}
      (h : 0 ≤ delay ∧ delay ≤ DeliverWebhook.backoffCap attempts) :
      Turns env s (.deliverBatchWebhook event deferBy (.backingOff attempts)) (.backoff delay)
        { next := none
          jobs := [.deliverBatchWebhook event (DeliverWebhook.deferBy delay)] }
  | raise {frame : Frame} {exc : String} :
      Turns env s frame (.raise exc) { next := frame.raised exc }
  | crash {frame : Frame} : Turns env s frame .crash { next := frame.crashed }
  | timeout {frame : Frame} : Turns env s frame .timeout .done

theorem turns_of_step (h : frame.step env s c = some e) : Turns env s frame c e := by
  cases c with
  | next => exact .next h
  | look item =>
    cases frame with
    | processChunk i deferBy pc =>
      obtain ⟨e₁, h₁, rfl⟩ := Option.map_eq_some_iff.mp h
      obtain ⟨chunk, items, seen, outcomes, rfl, hunseen, rfl⟩ := ProcessChunk.look_cases h₁
      exact .look hunseen
    | _ => cases h
  | reply item replies =>
    cases frame with
    | processChunk i deferBy pc =>
      obtain ⟨e₁, h₁, rfl⟩ := Option.map_eq_some_iff.mp h
      obtain ⟨chunk, items, seen, outcomes, value, status, outcome, rfl, hvalue, hseen, ho, rfl⟩ :=
        ProcessChunk.reply_cases h₁
      exact .reply hvalue hseen ho
    | _ => cases h
  | posted ok =>
    cases frame with
    | deliverBatchWebhook event deferBy pc =>
      obtain ⟨e₁, h₁, rfl⟩ := Option.map_eq_some_iff.mp h
      cases pc <;> cases h₁
      exact .posted
    | _ => cases h
  | backoff delay =>
    cases frame with
    | deliverBatchWebhook event deferBy pc =>
      obtain ⟨e₁, h₁, rfl⟩ := Option.map_eq_some_iff.mp h
      cases pc with
      | backingOff attempts =>
        simp only [DeliverWebhook.backoff] at h₁
        split at h₁ <;> cases h₁
        exact .backoff ‹_›
      | _ => cases h₁
    | _ => cases h
  | raise => cases h; exact .raise
  | crash => cases h; exact .crash
  | timeout => cases h; exact .timeout

theorem ProcessChunk.wrote_of_body {i deferBy : Nat} {chunk : BatchChunk} {pc : Body}
    {e : Effect Body} (h : pc.step env s i chunk = some e) :
    Wrote env s (.processChunk i deferBy (.body chunk pc)) e.commit e.put := by
  cases pc with
  | reading | gathering =>
    obtain ⟨_, -, h⟩ := Option.bind_eq_some_iff.mp h
    cases h
    exact .nothing
  | cancelling | written =>
    obtain rfl := Option.some.inj h
    split <;> exact .nothing
  | cancelLoaded row => cases h; exact .commit .cancelRelease
  | writing results => cases h; exact .put .chunk
  | recomputed row ok fail counters => cases h; exact .commit .success
  | loaded | flushed | succeeded => cases h; exact .nothing

theorem ProcessChunk.wrote_of_handler (i deferBy : Nat) (chunk : BatchChunk) (exc : String)
    (pc : Handler) : Wrote env s (.processChunk i deferBy (.handler chunk exc pc))
      (pc.step env s i exc).commit (pc.step env s i exc).put := by
  cases pc with
  | failing =>
    simp only [Handler.step]
    split <;> exact .nothing
  | loadedBatch row batch =>
    simp only [Handler.step]
    split_ifs with hs hr
    · exact .commit (.giveUp hs hr)
    · exact .nothing
    · exact .commit (.retry hs)
  | loadedChunk | announceFailed | reEnqueue => exact .nothing

theorem wrote_of_start (job : Job) :
    Wrote env s (.queued job) (Frame.start env s job).commit (Frame.start env s job).put := by
  cases job with
  | orchestrateBatch =>
    simp only [Frame.start, Orchestrate.start]
    split <;> exact .nothing
  | processChunk =>
    simp only [Frame.start, ProcessChunk.start]
    split <;> exact .nothing
  | checkBatchCompletion =>
    simp only [Frame.start, CheckCompletion.start]
    split <;> exact .nothing
  | finalizeBatch =>
    simp only [Frame.start, Finalize.start]
    split <;> exact .nothing
  | deliverBatchWebhook =>
    simp only [Frame.start, DeliverWebhook.start]
    split <;> exact .nothing
  | reclaimLeasesCron => exact .commit .reclaim
  | cancelBatch => exact .nothing

theorem Orchestrate.wrote_of_step (pc : Pc) :
    Wrote env s (.orchestrateBatch pc) (step env s pc).commit (step env s pc).put := by
  cases pc with
  | gotBatch loaded startedAt =>
    simp only [step]
    split <;> exact .nothing
  | planned => exact .nothing
  | reclaimed loaded startedAt rows fresh now =>
    simp only [step]
    split
    · exact .nothing
    · rename_i hu
      exact .commit (.orchestrate fun hf => by_contra fun hne => hu ⟨hf, hne⟩)
  | enqueueing chunkIds => cases chunkIds <;> exact .nothing

theorem ProcessChunk.wrote_of_step {i deferBy : Nat} {pc : Pc} {e : Effect Pc}
    (h : step env s i pc = some e) : Wrote env s (.processChunk i deferBy pc) e.commit e.put := by
  cases pc with
  | gotBatch =>
    obtain rfl := Option.some.inj h
    split
    · exact .nothing
    · split <;> exact .nothing
  | leased => cases h; exact .commit .lease
  | body chunk pc =>
    obtain ⟨e₁, h₁, rfl⟩ := Option.map_eq_some_iff.mp h
    exact wrote_of_body h₁
  | handler chunk exc pc => cases h; exact wrote_of_handler i _ chunk exc pc

theorem CheckCompletion.wrote_of_step (deferBy : Nat) (pc : Pc) :
    Wrote env s (.checkBatchCompletion deferBy pc) (step s pc).commit (step s pc).put := by
  cases pc with
  | counted loaded now counts =>
    simp only [step]
    split
    · rename_i hx
      exact .commit (.exhausted hx)
    · rename_i hx
      split <;> exact .commit (.checked (by simpa using hx))
  | requeueing unleased todo =>
    cases todo with
    | nil => exact .commit .requeue
    | cons => exact .nothing
  | _ => exact .nothing

theorem Finalize.wrote_of_step {pc : Pc} {e : Effect Pc} (h : step env s pc = some e) :
    Wrote env s (.finalizeBatch pc) e.commit e.put := by
  cases pc with
  | gotBatch loaded unfinished =>
    simp only [step] at h
    split at h <;> cases h <;> exact .nothing
  | gathering snap keys parts =>
    cases keys with
    | nil => cases h; exact .put .results
    | cons key keys =>
      obtain ⟨_, -, h₁⟩ := Option.bind_eq_some_iff.mp h
      cases h₁
      exact .nothing
  | concatenated => cases h; exact .put .manifest
  | committing => cases h; exact .commit .finalize
  | incomplete | announce => cases h; exact .nothing

theorem wrote_of_next (h : frame.next env s = some e) : Wrote env s frame e.commit e.put := by
  cases frame with
  | queued job => cases h; exact wrote_of_start job
  | orchestrateBatch pc => cases h; exact Orchestrate.wrote_of_step pc
  | processChunk i deferBy pc =>
    obtain ⟨e₁, h₁, rfl⟩ := Option.map_eq_some_iff.mp h
    exact ProcessChunk.wrote_of_step h₁
  | checkBatchCompletion deferBy pc => cases h; exact CheckCompletion.wrote_of_step deferBy pc
  | finalizeBatch pc =>
    obtain ⟨e₁, h₁, rfl⟩ := Option.map_eq_some_iff.mp h
    exact Finalize.wrote_of_step h₁
  | deliverBatchWebhook event deferBy pc =>
    obtain ⟨e₁, h₁, rfl⟩ := Option.map_eq_some_iff.mp h
    cases pc with
    | posted => cases h₁; exact .commit .webhook
    | posting | backingOff => cases h₁
  | cancelBatch => cases h; exact .commit .cancel

theorem wrote_of_step (h : frame.step env s c = some e) : Wrote env s frame e.commit e.put := by
  cases turns_of_step h with
  | next h => exact wrote_of_next h
  | _ => exact .nothing

theorem commits_of_step {commit : Commit} (h : frame.step env s c = some e)
    (hc : e.commit = some commit) : Commits env s frame commit := by
  have hw := wrote_of_step h
  rw [hc] at hw
  generalize e.put = put at hw
  cases hw with
  | commit hk => exact hk

/-- A step writes nothing, commits, or puts. -/
theorem write_cases (h : frame.step env s c = some e) :
    ((e.commit = none ∧ e.put = none) ∧ e.shared s = s) ∨
    (∃ commit, (e.commit = some commit ∧ e.put = none) ∧ Commits env s frame commit ∧
      e.shared s = { s with db := commit.apply s.db }) ∨
    ∃ put, (e.commit = none ∧ e.put = some put) ∧ Puts env frame put ∧
      e.shared s = { s with store := put.apply s.store } := by
  have hw := wrote_of_step h
  obtain ⟨next, commit, put, jobs⟩ := e
  cases hw with
  | nothing => exact .inl ⟨⟨rfl, rfl⟩, rfl⟩
  | commit hk => exact .inr (.inl ⟨_, ⟨rfl, rfl⟩, hk, rfl⟩)
  | put hp => exact .inr (.inr ⟨_, ⟨rfl, rfl⟩, hp, rfl⟩)

/-- What a step does to the shared state. -/
theorem shared_cases (h : frame.step env s c = some e) :
    e.shared s = s ∨
    (∃ commit, Commits env s frame commit ∧ e.shared s = { s with db := commit.apply s.db }) ∨
    ∃ put, Puts env frame put ∧ e.shared s = { s with store := put.apply s.store } := by
  rcases write_cases h with ⟨-, hs⟩ | ⟨commit, -, hk, hs⟩ | ⟨put, -, hp, hs⟩
  · exact .inl hs
  · exact .inr (.inl ⟨commit, hk, hs⟩)
  · exact .inr (.inr ⟨put, hp, hs⟩)

theorem db_cases (h : frame.step env s c = some e) : (e.shared s).db = s.db ∨
    ∃ commit, Commits env s frame commit ∧ (e.shared s).db = commit.apply s.db := by
  rcases shared_cases h with hs | ⟨commit, hc, hs⟩ | ⟨put, -, hs⟩ <;> rw [hs]
  · exact .inl rfl
  · exact .inr ⟨commit, hc, rfl⟩
  · exact .inl rfl

/-- To show something of all the jobs that a step leaves: the choices other than `next`
have few outcomes. -/
theorem forall_frames_of_step {P : Frame → Prop} (h : frame.step env s c = some e)
    (queued : ∀ job, P (.queued job))
    (next : frame.next env s = some e → ∀ f ∈ e.next, P f)
    (look : ∀ i deferBy chunk items seen outcomes item,
      frame = .processChunk i deferBy (.body chunk (.gathering items seen outcomes)) →
      seen[item]? = some none →
      P (.processChunk i deferBy (.body chunk
        (.gathering items (seen.set item (some s.db.batch.status)) outcomes))))
    (reply : ∀ i deferBy chunk items seen outcomes item value status replies outcome,
      frame = .processChunk i deferBy (.body chunk (.gathering items seen outcomes)) →
      items[item]? = some value → seen[item]? = some (some status) →
      runOne env.intOfStr chunk.offset status value replies = some outcome →
      P (.processChunk i deferBy
        (.body chunk (.gathering items seen (outcomes.set item (some outcome))))))
    (posted : ∀ event deferBy loaded ok,
      frame = .deliverBatchWebhook event deferBy (.posting loaded) →
      P (.deliverBatchWebhook event deferBy (.posted loaded ok)))
    (raise : ∀ i deferBy chunk pc exc, frame = .processChunk i deferBy (.body chunk pc) →
      P (.processChunk i deferBy (.handler chunk exc .failing))) :
    ∀ f ∈ e.frames, P f := by
  refine Effect.forall_frames (fun f hm => ?_) queued
  cases turns_of_step h with
  | next h => exact next h f hm
  | look hunseen =>
    cases hm
    exact look _ _ _ _ _ _ _ rfl hunseen
  | reply hvalue hseen ho =>
    cases hm
    exact reply _ _ _ _ _ _ _ _ _ _ _ rfl hvalue hseen ho
  | posted =>
    cases hm
    exact posted _ _ _ _ rfl
  | backoff => cases hm
  | raise =>
    simp only [Frame.raised] at hm
    split at hm <;> cases hm
    exact raise _ _ _ _ _ rfl
  | crash => cases frame <;> cases hm <;> exact queued _
  | timeout => cases hm

/-! ## How a job goes on -/

/-- The entry of the queue that the job is a run of. -/
def Frame.job : Frame → Job
  | .queued job => job
  | .orchestrateBatch _ => .orchestrateBatch
  | .processChunk i deferBy _ => .processChunk i deferBy
  | .checkBatchCompletion deferBy _ => .checkBatchCompletion deferBy
  | .finalizeBatch _ => .finalizeBatch
  | .deliverBatchWebhook event deferBy _ => .deliverBatchWebhook event deferBy
  | .cancelBatch _ => .cancelBatch

theorem job_of_step (h : frame.step env s c = some e) {f : Frame} (hm : f ∈ e.next) :
    f.job = frame.job := by
  cases turns_of_step h with
  | next h =>
    cases frame with
    | queued job =>
      cases h
      cases job with
      | reclaimLeasesCron => cases hm
      | cancelBatch => cases hm; rfl
      | _ => obtain ⟨_, -, rfl⟩ := Option.map_eq_some_iff.mp hm; rfl
    | orchestrateBatch | checkBatchCompletion =>
      cases h
      obtain ⟨_, -, rfl⟩ := Option.map_eq_some_iff.mp hm
      rfl
    | processChunk | finalizeBatch | deliverBatchWebhook =>
      obtain ⟨_, -, rfl⟩ := Option.map_eq_some_iff.mp h
      obtain ⟨_, -, rfl⟩ := Option.map_eq_some_iff.mp hm
      rfl
    | cancelBatch => cases h; cases hm
  | look | reply | posted => cases hm; rfl
  | backoff | timeout => cases hm
  | raise =>
    simp only [Frame.raised] at hm
    split at hm <;> cases hm
    rfl
  | crash => cases frame <;> cases hm <;> rfl

/-- How a step leaves a job under way: it has taken the job from the queue, or it has run a
statement of the job. -/
inductive Resumes (env : Env) (s : Shared) : Frame → Choice → Effect Frame → Frame → Prop where
  | start {f : Frame} (h : f ∈ (Frame.start env s f.job).next) :
      Resumes env s (.queued f.job) .next (Frame.start env s f.job) f
  | next {frame f : Frame} {e : Effect Frame} (hnot : ∀ job, frame ≠ .queued job)
      (h : frame.next env s = some e) (hm : f ∈ e.next) (hjob : f.job = frame.job) :
      Resumes env s frame .next e f
  | look {i deferBy : Nat} {chunk : BatchChunk} {items : List Json}
      {seen : List (Option BatchStatus)} {outcomes : List (Option Outcome)} {item : Nat}
      {e : Effect Frame} (hcommit : e.commit = none) (hunseen : seen[item]? = some none) :
      Resumes env s (.processChunk i deferBy (.body chunk (.gathering items seen outcomes)))
        (.look item) e
        (.processChunk i deferBy (.body chunk
          (.gathering items (seen.set item (some s.db.batch.status)) outcomes)))
  | reply {i deferBy : Nat} {chunk : BatchChunk} {items : List Json}
      {seen : List (Option BatchStatus)} {outcomes : List (Option Outcome)} {item : Nat}
      {value : Json} {status : BatchStatus} {replies : List InferenceResult} {outcome : Outcome}
      {e : Effect Frame} (hcommit : e.commit = none) (hvalue : items[item]? = some value)
      (hseen : seen[item]? = some (some status))
      (ho : runOne env.intOfStr chunk.offset status value replies = some outcome) :
      Resumes env s (.processChunk i deferBy (.body chunk (.gathering items seen outcomes)))
        (.reply item replies) e
        (.processChunk i deferBy
          (.body chunk (.gathering items seen (outcomes.set item (some outcome)))))
  | posted {event : Event} {deferBy : Nat} {loaded : Batch} {ok : Bool} {e : Effect Frame} :
      Resumes env s (.deliverBatchWebhook event deferBy (.posting loaded)) (.posted ok) e
        (.deliverBatchWebhook event deferBy (.posted loaded ok))
  | raise {i deferBy : Nat} {chunk : BatchChunk} {pc : ProcessChunk.Body} {exc : String}
      {e : Effect Frame} (hcommit : e.commit = none) :
      Resumes env s (.processChunk i deferBy (.body chunk pc)) (.raise exc) e
        (.processChunk i deferBy (.handler chunk exc .failing))

theorem resumes_of_step (h : frame.step env s c = some e) {f : Frame} (hm : f ∈ e.frames)
    (hnot : ∀ job, f ≠ .queued job) : Resumes env s frame c e f := by
  replace hm : f ∈ e.next := by
    rcases List.mem_append.mp hm with hm | hm
    · simpa using hm
    · obtain ⟨job, -, rfl⟩ := List.mem_map.mp hm
      exact absurd rfl (hnot job)
  have hjob := job_of_step h hm
  cases turns_of_step h with
  | next h =>
    cases frame with
    | queued job =>
      cases h
      obtain rfl : f.job = job := hjob
      exact .start hm
    | _ => exact .next (fun _ => nofun) h hm hjob
  | look hunseen =>
    cases hm
    exact .look rfl hunseen
  | reply hvalue hseen ho =>
    cases hm
    exact .reply rfl hvalue hseen ho
  | posted =>
    cases hm
    exact .posted
  | backoff | timeout => cases hm
  | raise =>
    simp only [Frame.raised] at hm
    split at hm <;> cases hm
    exact .raise rfl
  | crash => cases frame <;> cases hm <;> exact absurd rfl (hnot _)

/-- How a statement of the body that does not end it goes on, and what it commits and puts. -/
inductive ProcessChunk.Body.Goes (env : Env) (s : Shared) (i : Nat) (chunk : BatchChunk) :
    Body → Body → Option Commit → Option Put → Prop where
  | read {items : List Json}
      (hread : readLineRange env.loads (env.reads env.spec.prompts) chunk.offset chunk.limit =
        some items) :
      Goes env s i chunk .reading
        (.gathering items (List.replicate items.length none) (List.replicate items.length none))
        none none
  | cancel {items : List Json} {seen : List (Option BatchStatus)}
      {outcomes : List (Option Outcome)} :
      Goes env s i chunk (.gathering items seen outcomes) .cancelling none none
  | gather {items : List Json} {seen : List (Option BatchStatus)}
      {outcomes : List (Option Outcome)} {results : List Outcome}
      (hall : outcomes.mapM id = some results) :
      Goes env s i chunk (.gathering items seen outcomes) (.writing (sortResults results))
        none none
  | loadCancelled {row : BatchChunk} (hrow : s.db.chunks[i]? = some row) :
      Goes env s i chunk .cancelling (.cancelLoaded row) none none
  | write {results : List Outcome} :
      Goes env s i chunk (.writing results) (.written (okCount results) (failCount results)) none
        (some (.rows (.chunk i) results))
  | load {row : BatchChunk} {ok fail : Nat} (hrow : s.db.chunks[i]? = some row) :
      Goes env s i chunk (.written ok fail) (.loaded row ok fail) none none
  | flush {row : BatchChunk} {ok fail : Nat} :
      Goes env s i chunk (.loaded row ok fail) (.flushed row ok fail) none none
  | recompute {row : BatchChunk} {ok fail : Nat} :
      Goes env s i chunk (.flushed row ok fail)
        (.recomputed row ok fail <| recomputeBatchCounters <|
          s.db.chunks.modify i (row.flush (row.succeed i ok fail))) none none
  | succeed {row : BatchChunk} {ok fail : Nat} {counters : Counters} :
      Goes env s i chunk (.recomputed row ok fail counters) .succeeded
        (some (.success i row (row.succeed i ok fail) counters)) none

theorem ProcessChunk.Body.goes_of_step {i : Nat} {chunk : BatchChunk} {pc pc' : Body}
    {e : Effect Body} (h : pc.step env s i chunk = some e) (hpc : e.next = some pc') :
    pc.Goes env s i chunk pc' e.commit e.put := by
  cases pc with
  | reading =>
    obtain ⟨items, hread, h⟩ := Option.bind_eq_some_iff.mp h
    cases h
    cases hpc
    exact .read hread
  | gathering items seen outcomes =>
    obtain ⟨results, hall, h⟩ := Option.bind_eq_some_iff.mp h
    cases h
    simp only [Effect.next_goto, afterGather] at hpc
    split at hpc <;> cases hpc
    · exact .cancel
    · exact .gather hall
  | cancelling =>
    obtain rfl := Option.some.inj h
    split at hpc <;> cases hpc
    exact .loadCancelled ‹_›
  | written ok fail =>
    obtain rfl := Option.some.inj h
    split at hpc <;> cases hpc
    exact .load ‹_›
  | writing results => cases h; cases hpc; exact .write
  | loaded row ok fail => cases h; cases hpc; exact .flush
  | flushed row ok fail => cases h; cases hpc; exact .recompute
  | recomputed row ok fail counters => cases h; cases hpc; exact .succeed
  | cancelLoaded | succeeded => cases h; cases hpc

/-- How a statement of the handler that does not end it goes on, and what it commits. -/
inductive ProcessChunk.Handler.Goes (env : Env) (s : Shared) (i : Nat) (exc : String) :
    Handler → Handler → Option Commit → Prop where
  | load {row : BatchChunk} (hrow : s.db.chunks[i]? = some row) :
      Goes env s i exc .failing (.loadedChunk row) none
  | loadBatch {row : BatchChunk} :
      Goes env s i exc (.loadedChunk row) (.loadedBatch row s.db.batch) none
  | giveUp {row : BatchChunk} {batch : Batch} (spent : env.chunkMaxAttempts ≤ row.attempts)
      (running : batch.status = .running) :
      Goes env s i exc (.loadedBatch row batch) .announceFailed
        (some (.failure i row (row.fail env exc) batch (failBatch s.now i exc batch)))
  | retry {row : BatchChunk} {batch : Batch} (left : ¬ env.chunkMaxAttempts ≤ row.attempts) :
      Goes env s i exc (.loadedBatch row batch) .reEnqueue
        (some (.failure i row (row.fail env exc) batch batch))

theorem ProcessChunk.Handler.goes_of_step {i : Nat} {exc : String} {pc pc' : Handler}
    (hpc : (pc.step env s i exc).next = some pc') :
    pc.Goes env s i exc pc' (pc.step env s i exc).commit := by
  cases pc with
  | failing =>
    simp only [step] at hpc ⊢
    split at hpc <;> cases hpc
    exact .load ‹_›
  | loadedChunk row => cases hpc; exact .loadBatch
  | loadedBatch row batch =>
    simp only [step] at hpc ⊢
    split_ifs at hpc ⊢ <;> cases hpc
    · exact .giveUp ‹_› ‹_›
    · exact .retry ‹_›
  | announceFailed | reEnqueue => cases hpc

/-- How a step of process_chunk that does not end it goes on, and what it commits. -/
inductive ProcessChunk.Goes (env : Env) (s : Shared) (i : Nat) :
    Choice → Pc → Pc → Option Commit → Prop where
  | grant {row : BatchChunk} (hrow : s.db.chunks[i]? = some row)
      (free : row.refused env s.now = false) : Goes env s i .next .gotBatch (.leased row s.now) none
  | lease {loaded : BatchChunk} {now : Int} :
      Goes env s i .next (.leased loaded now) (.body (loaded.lease env now) .reading)
        (some (.lease i loaded (loaded.lease env now)))
  | body {chunk : BatchChunk} {pc pc' : Body} {e : Effect Body}
      (h : pc.step env s i chunk = some e) (hpc : e.next = some pc') :
      Goes env s i .next (.body chunk pc) (.body chunk pc') e.commit
  | look {chunk : BatchChunk} {items : List Json} {seen : List (Option BatchStatus)}
      {outcomes : List (Option Outcome)} {item : Nat} (hunseen : seen[item]? = some none) :
      Goes env s i (.look item) (.body chunk (.gathering items seen outcomes))
        (.body chunk (.gathering items (seen.set item (some s.db.batch.status)) outcomes)) none
  | reply {chunk : BatchChunk} {items : List Json} {seen : List (Option BatchStatus)}
      {outcomes : List (Option Outcome)} {item : Nat} {value : Json} {status : BatchStatus}
      {replies : List InferenceResult} {outcome : Outcome} (hvalue : items[item]? = some value)
      (hseen : seen[item]? = some (some status))
      (ho : runOne env.intOfStr chunk.offset status value replies = some outcome) :
      Goes env s i (.reply item replies) (.body chunk (.gathering items seen outcomes))
        (.body chunk (.gathering items seen (outcomes.set item (some outcome)))) none
  | raise {chunk : BatchChunk} {pc : Body} {exc : String} :
      Goes env s i (.raise exc) (.body chunk pc) (.handler chunk exc .failing) none
  | handler {chunk : BatchChunk} {exc : String} {pc pc' : Handler}
      (hpc : (pc.step env s i exc).next = some pc') :
      Goes env s i .next (.handler chunk exc pc) (.handler chunk exc pc')
        (pc.step env s i exc).commit

theorem ProcessChunk.goes_of_step {i : Nat} {pc pc' : Pc} {e : Effect Pc}
    (h : step env s i pc = some e) (hpc : e.next = some pc') :
    Goes env s i .next pc pc' e.commit := by
  cases pc with
  | gotBatch =>
    obtain rfl := Option.some.inj h
    split at hpc
    · cases hpc
    · rename_i row hrow
      split at hpc <;> cases hpc
      rw [if_neg ‹_›]
      exact .grant hrow (eq_false_of_ne_true ‹_›)
  | leased => cases h; cases hpc; exact .lease
  | body chunk pc =>
    obtain ⟨e₁, h₁, rfl⟩ := Option.map_eq_some_iff.mp h
    obtain ⟨pc₁, hpc₁, rfl⟩ := Option.map_eq_some_iff.mp hpc
    exact .body h₁ hpc₁
  | handler chunk exc pc =>
    cases h
    obtain ⟨pc₁, hpc₁, rfl⟩ := Option.map_eq_some_iff.mp hpc
    exact .handler hpc₁

/-- How a job comes to be in process_chunk: it has been queued, or it was there. -/
theorem processChunk_of_step (h : frame.step env s c = some e) {i deferBy : Nat}
    {pc : ProcessChunk.Pc} (hm : .processChunk i deferBy pc ∈ e.frames) :
    (frame = .queued (.processChunk i deferBy) ∧ pc = .gotBatch ∧ e.commit = none) ∨
    ∃ pc₀, frame = .processChunk i deferBy pc₀ ∧
      ProcessChunk.Goes env s i c pc₀ pc e.commit := by
  cases resumes_of_step h hm fun _ => nofun with
  | start hstart =>
    refine .inl ⟨rfl, ?_⟩
    simp only [Frame.job, Frame.start, ProcessChunk.start] at hstart ⊢
    split at hstart <;> cases hstart
    exact ⟨rfl, by rw [if_neg ‹_›]; rfl⟩
  | next hnot h hnext hjob =>
    cases frame with
    | queued job => exact absurd rfl (hnot job)
    | processChunk j d pc₀ =>
      cases hjob
      obtain ⟨e₀, h₀, rfl⟩ := Option.map_eq_some_iff.mp h
      obtain ⟨pc', hpc, heq⟩ := Option.map_eq_some_iff.mp hnext
      cases heq
      exact .inr ⟨pc₀, rfl, ProcessChunk.goes_of_step h₀ hpc⟩
    | _ => cases hjob
  | look hcommit hunseen => exact .inr ⟨_, rfl, hcommit ▸ .look hunseen⟩
  | reply hcommit hvalue hseen ho => exact .inr ⟨_, rfl, hcommit ▸ .reply hvalue hseen ho⟩
  | raise hcommit => exact .inr ⟨_, rfl, hcommit ▸ .raise⟩

/-- How a step of finalize_batch that does not end it goes on, and what it puts. -/
inductive Finalize.Goes (env : Env) (s : Shared) : Pc → Pc → Option Put → Prop where
  | incomplete {loaded : Batch}
      {unfinished : ¬ (loaded.status = .completed ∨ loaded.status = .cancelled)} :
      Goes env s (.gotBatch loaded unfinished) .incomplete none
  | load {loaded : Batch}
      {unfinished : ¬ (loaded.status = .completed ∨ loaded.status = .cancelled)}
      (complete : ¬ (s.db.chunks = [] ∨ ∃ c ∈ s.db.chunks, c.status ≠ .succeeded)) :
      Goes env s (.gotBatch loaded unfinished)
        (.gathering ⟨loaded, s.db.chunks, unfinished, complete⟩
          (s.db.chunks.filterMap (·.resultKey)) []) none
  | get {snap : Snapshot} {key : ObjectKey} {keys : List ObjectKey}
      {parts : List (List Outcome)} {part : List Outcome}
      (hpart : s.store.rows key = some part) :
      Goes env s (.gathering snap (key :: keys) parts)
        (.gathering snap keys (parts ++ [part])) none
  | results {snap : Snapshot} {parts : List (List Outcome)} :
      Goes env s (.gathering snap [] parts) (.concatenated snap)
        (some (.rows .results parts.flatten))
  | manifest {snap : Snapshot} :
      Goes env s (.concatenated snap) (.committing snap)
        (some (.manifest (manifestOf env snap.batch snap.rows)))
  | commit {snap : Snapshot} : Goes env s (.committing snap) .announce none

theorem Finalize.goes_of_step {pc pc' : Pc} {e : Effect Pc} (h : step env s pc = some e)
    (hpc : e.next = some pc') : Goes env s pc pc' e.put := by
  cases pc with
  | gotBatch loaded unfinished =>
    simp only [step] at h
    split at h <;> cases h <;> cases hpc
    · exact .incomplete
    · exact .load _
  | gathering snap keys parts =>
    cases keys with
    | nil => cases h; cases hpc; exact .results
    | cons key keys =>
      obtain ⟨part, hpart, h₁⟩ := Option.bind_eq_some_iff.mp h
      cases h₁
      cases hpc
      exact .get hpart
  | concatenated => cases h; cases hpc; exact .manifest
  | committing => cases h; cases hpc; exact .commit
  | incomplete | announce => cases h; cases hpc

/-- How a job comes to be in finalize_batch. -/
theorem finalizeBatch_of_step (h : frame.step env s c = some e) {pc : Finalize.Pc}
    (hm : .finalizeBatch pc ∈ e.frames) :
    (frame = .queued .finalizeBatch ∧ ∃ unfinished, pc = .gotBatch s.db.batch unfinished) ∨
    ∃ pc₀, frame = .finalizeBatch pc₀ ∧ Finalize.Goes env s pc₀ pc e.put := by
  cases resumes_of_step h hm fun _ => nofun with
  | start hstart =>
    simp only [Frame.job, Frame.start, Finalize.start] at hstart
    split at hstart <;> cases hstart
    exact .inl ⟨rfl, _, rfl⟩
  | next hnot h hnext hjob =>
    cases frame with
    | queued job => exact absurd rfl (hnot job)
    | finalizeBatch pc₀ =>
      obtain ⟨e₀, h₀, rfl⟩ := Option.map_eq_some_iff.mp h
      obtain ⟨pc', hpc, heq⟩ := Option.map_eq_some_iff.mp hnext
      cases heq
      exact .inr ⟨pc₀, rfl, Finalize.goes_of_step h₀ hpc⟩
    | _ => cases hjob

/-- How a job comes to be in orchestrate_batch. -/
theorem orchestrateBatch_of_step (h : frame.step env s c = some e) {pc : Orchestrate.Pc}
    (hm : .orchestrateBatch pc ∈ e.frames) :
    (frame = .queued .orchestrateBatch ∧ ∃ loaded, pc = .gotBatch loaded s.now) ∨
    ∃ pc₀, frame = .orchestrateBatch pc₀ ∧ (Orchestrate.step env s pc₀).next = some pc := by
  cases resumes_of_step h hm fun _ => nofun with
  | start hstart =>
    simp only [Frame.job, Frame.start, Orchestrate.start] at hstart
    split at hstart <;> cases hstart
    exact .inl ⟨rfl, _, rfl⟩
  | next hnot h hnext hjob =>
    cases frame with
    | queued job => exact absurd rfl (hnot job)
    | orchestrateBatch pc₀ =>
      cases h
      obtain ⟨pc', hpc, heq⟩ := Option.map_eq_some_iff.mp hnext
      cases heq
      exact .inr ⟨pc₀, rfl, hpc⟩
    | _ => cases hjob

end BatchInference
