import BatchInference.Workers.Polling

/-!
# Runs in which the leases stay in force

A lease may lapse while its worker is alive, and it may be committed over a row that another
job has changed since it was read. Where neither happens, a run without faults does not undo a
success: finalize_batch finds the chunks as the check has counted them, and the polls depend
only on when the checks count. In a batch of one chunk there is then one poll at most.
-/

namespace BatchInference

open JobPool System

variable {env : Env} {now : Int} {s s' : Shared} {frame : Frame} {c : Choice} {e : Effect Frame}
  {v v' w : World Shared Frame} {m : Moves}

/-! ## What has succeeded stays so -/

/-- A lease is committed on the row that it has been decided on. -/
def Commit.leasesLoaded (chunks : List BatchChunk) : Commit → Bool
  | lease i loaded _ => chunks[i]? = some loaded
  | _ => true

/-- No lease has lapsed, and none is committed over another job's write. -/
def LeasesInForce (env : Env) (w : World Shared Frame) : Moves → Prop
  | .act i c => (∀ chunk ∈ w.shared.db.chunks, chunk.expired w.shared.now = false) ∧
      ∀ commit ∈ commitOf env w (.act i c), commit.leasesLoaded w.shared.db.chunks = true
  | .env _ => True

/-- A run without faults in which the leases stay in force. -/
def Smooth (env : Env) (w : World Shared Frame) (m : Moves) : Prop :=
  FaultFree w m ∧ LeasesInForce env w m

theorem allSucceeded_iff (db : Db) : AllSucceeded db ↔
    db.chunks.map (·.status) ≠ [] ∧ ∀ status ∈ db.chunks.map (·.status), status = .succeeded := by
  simp [AllSucceeded]

/-- What a job knows in such a run: nothing is cancelled or fails, and once all chunks have been
found succeeded they stay so. -/
def Frame.Faultless (s : Shared) : Frame → Prop
  | .queued .finalizeBatch | .finalizeBatch (.gotBatch ..)
  | .checkBatchCompletion _ .enqueueFinalize => AllSucceeded s.db
  | .checkBatchCompletion _ (.counted _ _ counts) =>
    counts.allSucceeded = true → AllSucceeded s.db
  | .checkBatchCompletion _ (.requeueing unleased todo) =>
    unleased = [] ∧ ∀ chunk ∈ todo, chunk.status = .pending
  | .processChunk _ _ (.leased loaded _) => loaded.status ≠ .succeeded
  | .processChunk _ _ (.body _ pc) => match pc with
    | .gathering _ seen outcomes => some .cancelled ∉ seen ∧
      ∀ outcome, some outcome ∈ outcomes → outcome.isCancelled = false
    | .cancelling | .cancelLoaded _ => False
    | _ => True
  | .queued .cancelBatch | .cancelBatch _ | .processChunk _ _ (.handler ..) => False
  | _ => True

theorem Frame.Faultless.mono (h : frame.Faultless s) (hs : AllSucceeded s.db → AllSucceeded s'.db) :
    frame.Faultless s' := by
  cases frame with
  | queued job =>
    cases job with
    | finalizeBatch => exact hs h
    | _ => exact h
  | checkBatchCompletion deferBy pc =>
    cases pc with
    | counted => exact fun hall => hs (h hall)
    | enqueueFinalize => exact hs h
    | _ => exact h
  | finalizeBatch pc =>
    cases pc with
    | gotBatch => exact hs h
    | _ => exact h
  | processChunk i deferBy pc =>
    cases pc with
    | body chunk pc => cases pc <;> exact h
    | _ => exact h
  | _ => exact h

/-- A commit leaves succeeded chunks succeeded. -/
theorem Commits.allSucceeded {commit : Commit} (h : Commits env s frame commit)
    (hf : frame.Faultless s)
    (hlease : ∀ i loaded new, commit = .lease i loaded new → s.db.chunks[i]? = some loaded)
    (hall : AllSucceeded s.db) : AllSucceeded (commit.apply s.db) := by
  have hins : commit.inserted = [] := by
    rcases h.inserted_cases with hins | ⟨_, _, _, _, hnil, -⟩
    · exact hins
    · exact absurd hnil hall.1
  have hrow (i : Nat) (row : BatchChunk) (hrow : s.db.chunks[i]? = some row) :
      (commit.onRow i row).status = .succeeded := by
    have hs : row.status = .succeeded := hall.2 row (List.mem_of_getElem? hrow)
    cases h with
    | orchestrate | exhausted | checked | reclaim =>
      rw [Commit.onRow, BatchChunk.reclaim_of_ne (by simp [hs]), hs]
    | finalize | webhook | cancel => exact hs
    | lease => exact absurd (hall.2 _ (List.mem_of_getElem? (hlease _ _ _ rfl))) hf
    | success =>
      simp only [Commit.onRow]
      split
      · rcases column_eq_or _ ChunkStatus.succeeded row.status with hc | hc
        · exact hc.trans hs
        · exact hc
      · exact hs
    | requeue =>
      obtain ⟨rfl, -⟩ := hf
      exact hs
    | cancelRelease | giveUp | retry => cases hf
  have hsame : (commit.apply s.db).chunks.map (·.status) = s.db.chunks.map (·.status) :=
    Commit.map_chunks_apply hins fun i row hi =>
      (hrow i row hi).trans (hall.2 row (List.mem_of_getElem? hi)).symm
  rw [allSucceeded_iff, hsame]
  exact (allSucceeded_iff s.db).mp hall

theorem AllSucceeded.step (h : frame.step env s c = some e) (hf : frame.Faultless s)
    (hlease : ∀ i loaded new, e.commit = some (.lease i loaded new) →
      s.db.chunks[i]? = some loaded) (hall : AllSucceeded s.db) :
    AllSucceeded (e.shared s).db := by
  cases hc : e.commit with
  | none => simpa [Effect.shared, hc] using hall
  | some commit =>
    have := (commits_of_step h hc).allSucceeded hf (fun i loaded new heq => hlease i loaded new
      (hc.trans (congrArg some heq))) hall
    simpa [Effect.shared, hc] using this

theorem mem_jobs_of_queued (h : frame.step env s c = some e) (hkills : c.kills = false) {job : Job}
    (hm : .queued job ∈ e.frames) : job ∈ e.jobs := by
  rcases List.mem_append.mp hm with hm | hm
  · replace hm : .queued job ∈ e.next := by simpa using hm
    cases turns_of_step h with
    | next h =>
      cases frame with
      | queued job =>
        cases h
        cases job with
        | reclaimLeasesCron | cancelBatch => cases hm
        | _ =>
          obtain ⟨_, -, hm⟩ := Option.map_eq_some_iff.mp hm
          cases hm
      | orchestrateBatch | checkBatchCompletion =>
        cases h
        obtain ⟨_, -, hm⟩ := Option.map_eq_some_iff.mp hm
        cases hm
      | processChunk | finalizeBatch | deliverBatchWebhook =>
        obtain ⟨_, -, rfl⟩ := Option.map_eq_some_iff.mp h
        obtain ⟨_, -, hm⟩ := Option.map_eq_some_iff.mp hm
        cases hm
      | cancelBatch => cases h; cases hm
    | raise | crash | timeout => cases hkills
    | look | reply | posted | backoff => cases hm
  · simpa using hm

theorem all_of_counts {now : Int} {chunks : List BatchChunk}
    (h : (countByStatus (reclaimExpiredLeases now chunks)).allSucceeded = true) :
    chunks ≠ [] ∧ ∀ c ∈ chunks, c.status = .succeeded := by
  rw [StatusCounts.allSucceeded, Bool.and_eq_true, decide_eq_true_iff, decide_eq_true_iff,
    total_countByStatus] at h
  obtain ⟨hcount, hpos⟩ := h
  refine ⟨by simpa [reclaimExpiredLeases, List.length_pos_iff] using hpos, fun c hm => ?_⟩
  have hall := List.countP_eq_length.mp hcount (c.reclaim now) (List.mem_map_of_mem hm)
  exact (BatchChunk.Kept.reclaim now c).status (by simpa using hall)

theorem CheckCompletion.faultless_of_step {deferBy : Nat} {pc pc' : Pc}
    (hf : Frame.Faultless s (.checkBatchCompletion deferBy pc))
    (hexpired : ∀ chunk ∈ s.db.chunks, chunk.expired s.now = false)
    (hpc : (step s pc).next = some pc') :
    Frame.Faultless s (.checkBatchCompletion deferBy pc') := by
  cases pc with
  | gotBatch => cases hpc; trivial
  | reclaimed => cases hpc; exact all_of_counts
  | counted loaded now counts =>
    simp only [step] at hpc
    split_ifs at hpc <;> cases hpc
    · trivial
    · exact hf ‹_›
    · trivial
  | selectPending =>
    cases hpc
    refine ⟨rfl, fun chunk hm => ?_⟩
    obtain ⟨hm, hlost⟩ := List.mem_filter.mp hm
    simpa [lost, hexpired chunk hm] using hlost
  | requeueing unleased todo =>
    obtain ⟨rfl, htodo⟩ := hf
    cases todo with
    | nil => cases hpc; trivial
    | cons chunk todo =>
      cases hpc
      rw [List.forall_mem_cons] at htodo
      exact ⟨by simp [htodo.1], htodo.2⟩
  | announceFailed | enqueueFinalize | repoll => cases hpc

theorem ProcessChunk.Body.faultless_of_step {i deferBy : Nat} {chunk : BatchChunk} {pc pc' : Body}
    {e : Effect Body} (hf : Frame.Faultless s (.processChunk i deferBy (.body chunk pc)))
    (h : pc.step env s i chunk = some e) (hpc : e.next = some pc') :
    Frame.Faultless s (.processChunk i deferBy (.body chunk pc')) := by
  cases pc with
  | reading =>
    obtain ⟨items, -, h⟩ := Option.bind_eq_some_iff.mp h
    cases h
    cases hpc
    exact ⟨by simp, fun outcome hm => by simp at hm⟩
  | gathering items seen outcomes =>
    obtain ⟨results, hall, h⟩ := Option.bind_eq_some_iff.mp h
    cases h
    have hnone : results.any (·.isCancelled) = false := by
      rw [List.any_eq_false]
      intro outcome hm
      rw [hf.2 outcome (eq_map_some hall ▸ List.mem_map_of_mem hm)]
      exact Bool.false_ne_true
    simp only [Effect.next_goto, afterGather, hnone] at hpc
    cases hpc
    trivial
  | cancelling | cancelLoaded => cases hf
  | written ok fail =>
    obtain rfl := Option.some.inj h
    split at hpc <;> cases hpc
    trivial
  | writing | loaded | flushed | recomputed => cases h; cases hpc; trivial
  | succeeded => cases h; cases hpc

theorem ProcessChunk.faultless_of_goes {i deferBy : Nat} {pc pc' : Pc} {commit : Option Commit}
    (hf : Frame.Faultless s (.processChunk i deferBy pc)) (hkills : c.kills = false)
    (hstatus : s.db.batch.status ≠ .cancelled) (h : Goes env s i c pc pc' commit) :
    Frame.Faultless s (.processChunk i deferBy pc') := by
  cases h with
  | grant hrow free =>
    intro hs
    simp [BatchChunk.refused, hs] at free
  | lease => trivial
  | body h hpc => exact Body.faultless_of_step hf h hpc
  | look hunseen =>
    refine ⟨fun hm => ?_, hf.2⟩
    rcases List.mem_or_eq_of_mem_set hm with hm | heq
    · exact hf.1 hm
    · exact hstatus (Option.some.inj heq).symm
  | @reply chunk items seen outcomes item value status replies outcome hvalue hseen ho =>
    refine ⟨hf.1, fun outcome hm => ?_⟩
    rcases List.mem_or_eq_of_mem_set hm with hm | heq
    · exact hf.2 outcome hm
    · cases heq
      refine eq_false_of_ne_true fun hcancelled => hf.1 ?_
      exact (isCancelled_runOne ho).mp hcancelled ▸ List.mem_of_getElem? hseen
  | raise => cases hkills
  | handler => cases hf

theorem Frame.Faultless.frames (hf : frame.Faultless s) (h : frame.step env s c = some e)
    (hkills : c.kills = false) (hstatus : s.db.batch.status ≠ .cancelled)
    (hexpired : ∀ chunk ∈ s.db.chunks, chunk.expired s.now = false) :
    ∀ f ∈ e.frames, f.Faultless s := by
  intro f hm
  cases f with
  | queued job =>
    cases enqueues_of_step h job (mem_jobs_of_queued h hkills hm) with
    | finalize => exact hf
    | _ => trivial
  | checkBatchCompletion deferBy pc =>
    rcases checkBatchCompletion_of_step h hm with ⟨-, loaded, rfl⟩ | ⟨pc₀, rfl, -, hpc⟩
    · trivial
    · exact CheckCompletion.faultless_of_step hf hexpired hpc
  | processChunk i deferBy pc =>
    rcases processChunk_of_step h hm with ⟨-, rfl, -⟩ | ⟨pc₀, rfl, hgoes⟩
    · trivial
    · exact ProcessChunk.faultless_of_goes hf hkills hstatus hgoes
  | finalizeBatch pc =>
    rcases finalizeBatch_of_step h hm with ⟨rfl, unfinished, rfl⟩ | ⟨pc₀, -, hgoes⟩
    · exact hf
    · generalize e.put = put at hgoes
      cases hgoes <;> trivial
  | cancelBatch loaded =>
    cases resumes_of_step h hm fun _ => nofun with
    | start => exact hf
    | next hnot h hnext hjob =>
      cases frame with
      | cancelBatch => exact hf
      | queued job => exact absurd rfl (hnot job)
      | _ => cases hjob
  | _ => trivial

/-- Only the API's call cancels a batch. -/
theorem Commits.cancelled_cases {commit : Commit} (h : Commits env s frame commit)
    (hc : (commit.onBatch s.db.batch).status = .cancelled) :
    s.db.batch.status = .cancelled ∨ ∃ loaded, frame = .cancelBatch loaded := by
  rw [commit.status_onBatch] at hc
  cases hs : commit.statusChange with
  | none => exact .inl (by simpa [hs] using hc)
  | some change =>
    obtain ⟨loaded, new⟩ := change
    obtain rfl : new = .cancelled := by simpa [hs] using hc
    cases h with
    | cancel => exact .inr ⟨_, rfl⟩
    | success | lease | cancelRelease | requeue | reclaim => cases hs
    | _ =>
      rw [Commit.statusChange] at hs
      split at hs
      · cases hs
      · simp_all [CheckCompletion.failBatch, ProcessChunk.failBatch, Finalize.complete,
          DeliverWebhook.attempt, Orchestrate.run]

theorem lease_of_leasesInForce {i : Nat} (hk : w.pool[i]? = some frame)
    (h : frame.step env w.shared c = some e) (hlease : LeasesInForce env w (.act i c)) :
    ∀ j loaded new, e.commit = some (.lease j loaded new) →
      w.shared.db.chunks[j]? = some loaded := by
  intro j loaded new hc
  have hcommit : commitOf env w (.act i c) = some (.lease j loaded new) := by
    simp [commitOf, hk, h, hc]
  simpa [LeasesInForce, hcommit, Commit.leasesLoaded] using hlease.2

theorem modular_faultless (env : Env) : (workers env).Modular (Smooth env)
    (fun s => s.db.batch.status ≠ .cancelled) Frame.Faultless := by
  refine modular_of_steps ?_ ?_ ?_ ?_
  · intro w i c frame e hI hJ ⟨hkills, hforce⟩ hk he
    have hf := hJ frame (List.mem_of_getElem? hk)
    refine ⟨fun hcancelled => ?_, fun f hm => ?_⟩
    · rcases db_cases he with hdb | ⟨commit, hc, hdb⟩ <;> rw [hdb] at hcancelled
      · exact hI hcancelled
      · rcases hc.cancelled_cases hcancelled with hc | ⟨loaded, rfl⟩
        · exact hI hc
        · exact hf
    · exact (hf.frames he hkills hI hforce.1 f hm).mono
        (.step he hf (lease_of_leasesInForce hk he hforce))
  · intro w i c frame e f _ ⟨_, hforce⟩ hk hframe he _ hf
    exact hf.mono (.step he hframe (lease_of_leasesInForce hk he hforce))
  · intro w job ⟨hm, _⟩
    obtain rfl := hm
    trivial
  · intro s seconds hI
    exact ⟨hI, fun f hf => hf.mono id⟩

theorem faultless_of_reach (h : (workers env).Reach (Smooth env) (created env now) w) :
    ∀ f ∈ w.pool, f.Faultless w.shared :=
  ((modular_faultless env).reach (by simp [created]) (by simp [created, Frame.Faultless]) h).2

theorem finalizesWhole_of_reach
    (h : (workers env).Reach (Smooth env) (created env now) w) : FinalizesWhole w m := by
  refine findsNext_of_forall ?_
  rintro i f rfl hk hloads
  obtain ⟨loaded, unfinished, rfl⟩ := Frame.exists_of_loadsChunks hloads
  exact faultless_of_reach h _ (List.mem_of_getElem? hk)

/-- While the leases stay in force, it depends on the checks alone. -/
theorem polls_once_iff {ms : List Moves}
    (hok : (workers env).Along (fun v m _ => Smooth env v m) (created env now) ms) :
    (workers env).Along (fun _ _ v => PollsOnce v) (created env now) ms ↔
      (workers env).Along (fun v m _ => CountsLast v m) (created env now) ms := by
  refine Along.congr
    (Q := fun v => Polled v ∧ (workers env).Reach (Smooth env) (created env now) v) hok
    ⟨polled_created env now, .refl⟩ ?_
  intro v m v' ⟨hv, hreach⟩ hm hf
  have hwhole : FinalizesWhole v m := finalizesWhole_of_reach hreach
  refine ⟨⟨countsLast_of_pollsOnce hf, fun hcounts => pollsOnce_of_fire hv hm.1 hcounts hf⟩, ?_⟩
  exact fun hpolls => ⟨polled_of_fire hv hm.1 hwhole hf hpolls, .step hreach hm hf⟩

/-! ## A batch of one chunk -/

/-- The checks that a success enqueues, until they count, and the step that enqueues them: if
there is one chunk only, it has succeeded. -/
def Frame.Nudged (s : Shared) : Frame → Prop
  | .processChunk _ _ (.body _ pc) => match pc with
    | .loaded row _ _ | .flushed row _ _ | .recomputed row _ _ _ =>
      row.status = .succeeded → AllSucceeded s.db
    | .succeeded => AllSucceeded s.db
    | _ => True
  | .queued (.checkBatchCompletion 0) | .checkBatchCompletion 0 (.gotBatch _)
  | .checkBatchCompletion 0 (.reclaimed ..) => AllSucceeded s.db
  | _ => True

theorem Frame.Nudged.mono (h : frame.Nudged s) (hs : AllSucceeded s.db → AllSucceeded s'.db) :
    frame.Nudged s' := by
  cases frame with
  | queued job =>
    cases job with
    | checkBatchCompletion deferBy =>
      cases deferBy with
      | zero => exact hs h
      | succ => trivial
    | _ => trivial
  | checkBatchCompletion deferBy pc =>
    cases deferBy with
    | zero =>
      cases pc with
      | gotBatch | reclaimed => exact hs h
      | _ => trivial
    | succ => trivial
  | processChunk i deferBy pc =>
    cases pc with
    | body chunk pc =>
      cases pc with
      | loaded | flushed | recomputed => exact fun hrow => hs (h hrow)
      | succeeded => exact hs h
      | _ => trivial
    | _ => trivial
  | _ => trivial

theorem eq_singleton_of_plan (hplan : env.plan.length ≤ 1) (hv : Valid env s) {i : Nat}
    {c : BatchChunk} (hc : s.db.chunks[i]? = some c) : i = 0 ∧ s.db.chunks = [c] := by
  have hlength : s.db.chunks.length ≤ 1 := by
    rcases hv.planned with hnil | hplaces
    · simp [hnil]
    · rwa [← List.length_map (·.place), hplaces]
  obtain ⟨hi, hget⟩ := List.getElem?_eq_some_iff.mp hc
  obtain rfl : i = 0 := by omega
  obtain ⟨c', hone⟩ := List.length_eq_one_iff.mp (by omega : s.db.chunks.length = 1)
  simp [hone] at hc
  exact ⟨rfl, by rw [hone, hc]⟩

theorem allSucceeded_of_success (hplan : env.plan.length ≤ 1) (hv : Valid env s) {i ok fail : Nat}
    {row : BatchChunk} {counters : Counters} (hrow : Loaded s i row)
    (hs : row.status ≠ .succeeded) :
    AllSucceeded ((Commit.success i row (row.succeed i ok fail) counters).apply s.db) := by
  obtain ⟨c, hc, -, -⟩ := hrow
  obtain ⟨rfl, hone⟩ := eq_singleton_of_plan hplan hv hc
  have hset : column row.status ChunkStatus.succeeded c.status = .succeeded :=
    column_of_ne (Ne.symm hs) _
  simp [AllSucceeded, Commit.apply, Commit.inserted, hone, Commit.onRow, BatchChunk.flush,
    BatchChunk.succeed, hset]

theorem CheckCompletion.nudged_of_step {deferBy : Nat} {pc pc' : Pc}
    (hf : Frame.Nudged s (.checkBatchCompletion deferBy pc)) (hpc : (step s pc).next = some pc') :
    Frame.Nudged s (.checkBatchCompletion deferBy pc') := by
  cases deferBy with
  | zero =>
    cases pc with
    | gotBatch => cases hpc; exact hf
    | counted =>
      simp only [step] at hpc
      split_ifs at hpc <;> cases hpc <;> trivial
    | requeueing unleased todo => cases todo <;> cases hpc <;> trivial
    | reclaimed | selectPending => cases hpc; trivial
    | announceFailed | enqueueFinalize | repoll => cases hpc
  | succ => trivial

theorem ProcessChunk.Body.nudged_of_step (hplan : env.plan.length ≤ 1) (hv : Valid env s)
    {i deferBy : Nat} {chunk : BatchChunk} {pc pc' : Body} {e : Effect Body}
    (hok : pc.Ok env s i chunk)
    (hf : Frame.Nudged s (.processChunk i deferBy (.body chunk pc)))
    (h : pc.step env s i chunk = some e) (hpc : e.next = some pc') {s' : Shared}
    (hs' : s'.db = e.commit.elim s.db (·.apply s.db))
    (hall : AllSucceeded s.db → AllSucceeded s'.db) :
    Frame.Nudged s' (.processChunk i deferBy (.body chunk pc')) := by
  have hgoes := goes_of_step h hpc
  generalize e.put = put at hgoes
  generalize e.commit = commit at hgoes hs'
  cases hgoes with
  | load hrow =>
    intro hs
    obtain ⟨-, hone⟩ := eq_singleton_of_plan hplan hv hrow
    exact hall (by simp [AllSucceeded, hone, hs])
  | flush | recompute => exact fun hs => hall (hf hs)
  | @succeed row ok fail counters =>
    by_cases hs : row.status = .succeeded
    · exact hall (hf hs)
    · change AllSucceeded s'.db
      rw [hs']
      exact allSucceeded_of_success hplan hv hok.2 hs
  | _ => trivial

theorem Frame.Nudged.frames (hplan : env.plan.length ≤ 1) (hv : Valid env s)
    (hok : frame.Ok env s) (hf : frame.Nudged s) (h : frame.step env s c = some e)
    (hkills : c.kills = false) (hall : AllSucceeded s.db → AllSucceeded (e.shared s).db) :
    ∀ f ∈ e.frames, f.Nudged (e.shared s) := by
  intro f hm
  cases f with
  | queued job =>
    cases enqueues_of_step h job (mem_jobs_of_queued h hkills hm) with
    | nudge => exact hall hf
    | _ => trivial
  | checkBatchCompletion deferBy pc =>
    rcases checkBatchCompletion_of_step h hm with ⟨rfl, loaded, rfl⟩ | ⟨pc₀, rfl, -, hpc⟩
    · cases deferBy with
      | zero => exact hall hf
      | succ => trivial
    · exact (CheckCompletion.nudged_of_step hf hpc).mono hall
  | processChunk i deferBy pc =>
    rcases processChunk_of_step h hm with ⟨-, rfl, -⟩ | ⟨pc₀, rfl, hgoes⟩
    · trivial
    · generalize hcommit : e.commit = commit at hgoes
      cases hgoes with
      | body hstep hpc =>
        exact ProcessChunk.Body.nudged_of_step hplan hv hok.2 hf hstep hpc
          (by rw [Effect.shared, hcommit]) hall
      | _ => trivial
  | _ => trivial

theorem modular_nudged (hplan : env.plan.length ≤ 1) : (workers env).Modular
    (fun w m => Smooth env w m ∧ (Valid env w.shared ∧ ∀ f ∈ w.pool, f.Ok env w.shared) ∧
      ∀ f ∈ w.pool, f.Faultless w.shared) (fun _ => True) Frame.Nudged := by
  refine modular_of_steps ?_ ?_ ?_ ?_
  · intro w i c frame e _ hJ ⟨⟨hkills, hforce⟩, ⟨hv, hok⟩, hfaultless⟩ hk he
    have hm := List.mem_of_getElem? hk
    exact ⟨trivial, (hJ frame hm).frames hplan hv (hok frame hm) he hkills
      (.step he (hfaultless frame hm) (lease_of_leasesInForce hk he hforce))⟩
  · intro w i c frame e f _ ⟨⟨_, hforce⟩, _, hfaultless⟩ hk _ he _ hf
    exact hf.mono (.step he (hfaultless frame (List.mem_of_getElem? hk))
      (lease_of_leasesInForce hk he hforce))
  · intro w job ⟨⟨hm, _⟩, _⟩
    obtain rfl := hm
    trivial
  · intro s seconds _
    exact ⟨trivial, fun f hf => hf.mono id⟩

/-- The only chunk has succeeded when its check counts. -/
theorem countsLast_of_single (hplan : env.plan.length ≤ 1)
    (h : (workers env).Reach (Smooth env) (created env now) w) : CountsLast w m := by
  have hnudged := ((modular_nudged hplan).reach trivial (by simp [created, Frame.Nudged])
    (h.and fun v hv => ⟨ok_of_reach hv, faultless_of_reach hv⟩)).2
  refine findsNext_of_forall ?_
  rintro i f rfl hk hnext chunk hm
  obtain ⟨loaded, t, rfl⟩ := Frame.exists_of_countsNext hnext
  have hall : AllSucceeded w.shared.db := hnudged _ (List.mem_of_getElem? hk)
  simp [BatchChunk.done, hall.2 chunk hm]

theorem polls_once_of_single (hplan : env.plan.length ≤ 1)
    (h : (workers env).Reach (Smooth env) (created env now) w) : PollsOnce w := by
  refine (Reach.invariant (P := Polled) (fun _ hv => hv) (polled_created env now) ?_ h).pollsOnce
  intro v m v' hreach hv hm hf
  have hpolls := pollsOnce_of_fire hv hm.1 (countsLast_of_single hplan hreach) hf
  exact polled_of_fire hv hm.1 (finalizesWhole_of_reach hreach) hf hpolls

end BatchInference
