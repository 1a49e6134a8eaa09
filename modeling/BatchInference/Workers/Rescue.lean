import BatchInference.Library.Solo
import BatchInference.Workers.Determined
import BatchInference.Workers.Drivers
import BatchInference.Workers.Represented

/-!
# No batch is past help

Whatever has happened in a serial run, a batch that has not ended can be brought to its end by one
more orchestrate_batch: when the worker inside a transaction is lost and the leases have run out,
it plans what there is no row for, gives each chunk that has not succeeded to process_chunk, and
the check that it enqueues finds all of them succeeded. Attempts that are spent are no obstacle,
nor is anything that the other jobs have left.
-/

namespace BatchInference

open JobPool System

namespace Responder

variable {p : Responder} {env : Env} {now : Int} {s s' : Shared} {frame : Frame}
  {v w : World Shared Frame} {ks : List Frame}

/-- Nothing goes wrong in the step; but a worker inside a transaction may be lost. -/
def Resumes (p : Responder) (env : Env) (frame : Frame) : Choice → Prop
  | .next | .look _ => True
  | .reply item replies => p.Replies env frame (.reply item replies)
  | .crash => frame.busy = true
  | _ => False

/-- Nothing is enqueued from outside. -/
def Undisturbed (p : Responder) (env : Env) (w : World Shared Frame) : Moves → Prop
  | .act k c => ∀ frame ∈ w.pool[k]?, p.Resumes env frame c
  | .env (.arrive _) => False
  | .env (.tick _) => True

theorem Undisturbed.answers {m : Moves} (h : p.Undisturbed env w m) : p.Answers env w m := by
  cases m with
  | act k c =>
    intro frame hk
    have hc := h frame hk
    cases c with
    | reply => exact hc
    | _ => trivial
  | env e => trivial

/-- From `w` the jobs come to `w'`, with one orchestrate_batch enqueued on the way and nothing
else. -/
def Rescues (p : Responder) (env : Env) (w w' : World Shared Frame) : Prop :=
  ∃ v v', (workers env).Reach (fun v m => Atomic v m ∧ p.Undisturbed env v m) w v ∧
    (workers env).fire v (.env (.arrive .orchestrateBatch)) = some v' ∧
    (workers env).Reach (fun v m => Atomic v m ∧ p.Undisturbed env v m) v' w'

theorem Rescues.reach {w' : World Shared Frame} (h : p.Rescues env w w') :
    (workers env).Reach (fun v m => Atomic v m ∧ p.Answers env v m) w w' := by
  obtain ⟨v, v', hbefore, hf, hafter⟩ := h
  have undisturbed : ∀ v m, Atomic v m ∧ p.Undisturbed env v m → Atomic v m ∧ p.Answers env v m :=
    fun _ _ hm => ⟨hm.1, hm.2.answers⟩
  have harrive : Atomic v (.env (.arrive .orchestrateBatch)) ∧
      p.Answers env v (.env (.arrive .orchestrateBatch)) := ⟨trivial, trivial⟩
  exact ((hbefore.mono undisturbed).step harrive hf).trans (hafter.mono undisturbed)

/-! ## A job alone -/

/-- The job runs from `s` to its end, in `s'`, and has then enqueued `ks`. -/
abbrev Runs (p : Responder) (env : Env) : Shared → Frame → Shared → List Frame → Prop :=
  Solo (workers env) Frame.busy fun _ frame c => p.Resumes env frame c

theorem admits (p : Responder) (env : Env) :
    Admits Frame.busy (fun _ frame c => p.Resumes env frame c)
      fun v m => Atomic v m ∧ p.Undisturbed env v m := by
  intro v i frame c hk hothers hmay
  refine ⟨fun _ _ _ => hothers, fun frame' hk' => ?_⟩
  obtain rfl := Option.some.inj (hk.symm.trans hk')
  exact hmay

theorem idle_queued (jobs : List Job) : ∀ frame ∈ jobs.map Frame.queued, frame.busy = false :=
  List.forall_mem_map.mpr fun _ _ => rfl

theorem Runs.step {c : Choice} {e : Effect Frame} {f : Frame} (hmay : p.Resumes env frame c)
    (h : frame.step env s c = some e) (hnext : e.next = some f)
    (hrun : p.Runs env (e.shared s) f s' ks) :
    p.Runs env s frame s' (e.jobs.map .queued ++ ks) := by
  refine .more hmay (step_iff.mpr ⟨e, h, ?_⟩) (idle_queued e.jobs) hrun
  simp [Effect.frames, hnext]

theorem Runs.next {e : Effect Frame} {f : Frame} (h : frame.next env s = some e)
    (hnext : e.next = some f) (hrun : p.Runs env (e.shared s) f s' ks) :
    p.Runs env s frame s' (e.jobs.map .queued ++ ks) :=
  Runs.step (c := .next) trivial h hnext hrun

/-- A statement that writes nothing. -/
theorem Runs.goto {f : Frame} (h : frame.next env s = some (.goto f))
    (hrun : p.Runs env s f s' ks) : p.Runs env s frame s' ks :=
  Runs.next h rfl hrun

theorem Runs.ends {e : Effect Frame} (h : frame.next env s = some e) (hnext : e.next = none) :
    p.Runs env s frame (e.shared s) (e.jobs.map .queued) := by
  have hmay : p.Resumes env frame .next := trivial
  have hstep : (workers env).step .next s frame = some (e.shared s, e.jobs.map .queued) :=
    step_iff.mpr ⟨e, h, by simp [Effect.frames, hnext]⟩
  exact .last hmay hstep (idle_queued e.jobs)

/-! ## orchestrate_batch -/

theorem runs_enqueueing (chunkIds : List Nat) :
    p.Runs env s (.orchestrateBatch (.enqueueing chunkIds)) s
      (chunkIds.map (fun i => .queued (.processChunk i 0)) ++
        [.queued (.checkBatchCompletion 2)]) := by
  induction chunkIds with
  | nil => exact Runs.ends (e := { next := none, jobs := [.checkBatchCompletion 2] }) rfl rfl
  | cons i chunkIds ih =>
    exact Runs.next (e := { next := some _, jobs := [.processChunk i 0] }) rfl rfl ih

theorem runs_orchestrate {rows : List BatchChunk} (active : s.db.batch.status.terminal = false)
    (hrows : createChunkRows env.spec s.db.chunks = .ok rows) :
    ∃ s', p.Runs env s (.queued .orchestrateBatch) s'
        (((rows.filter fun c => c.status ≠ .succeeded).map (·.chunkIndex)).map
          (fun i => .queued (.processChunk i 0)) ++ [.queued (.checkBatchCompletion 2)]) ∧
      s'.db.batch.status = .running ∧ s'.db.chunks = rows.map (·.reclaim s.now) ∧
      s'.store = s.store := by
  have hchunks : s.db.chunks ++ (if s.db.chunks = [] then rows else []) = rows := by
    split
    · rename_i he
      rw [he, List.nil_append]
    · rename_i hne
      rw [createChunkRows, if_pos hne, Except.ok.injEq] at hrows
      rw [List.append_nil, hrows]
  let commit : Commit := .orchestrate s.db.batch (Orchestrate.run s.now s.db.batch)
    (if s.db.chunks = [] then rows else []) s.now
  refine ⟨{ s with db := commit.apply s.db }, ?_, ?_, ?_, rfl⟩
  · refine Runs.goto (f := .orchestrateBatch (.gotBatch ⟨s.db.batch, active⟩ s.now)) ?_ ?_
    · simp only [Frame.next, Frame.start, Orchestrate.start, active]
      rfl
    refine Runs.goto (f := .orchestrateBatch (.planned ⟨s.db.batch, active⟩ s.now rows
      (s.db.chunks = []))) ?_ ?_
    · simp only [Frame.next, Orchestrate.step, hrows]
      rfl
    refine Runs.goto rfl (Runs.next (e := ⟨_, some commit, none, []⟩) ?_ rfl (runs_enqueueing _))
    simp [Frame.next, Orchestrate.step, Effect.map, commit]
  · simp [commit, Commit.onBatch, Orchestrate.run]
  · simp only [commit, Commit.apply, Commit.inserted, hchunks, Commit.onRow]
    exact List.ext_getElem? fun i => by simp

/-! ## process_chunk -/

theorem exists_rowOf {offset : Int} {item : Json} {outcome : Outcome}
    (h : p.row env offset item = some outcome) : ∃ index last, outcome = rowOf index last := by
  cases item with
  | obj fields =>
    obtain ⟨index, -, rfl⟩ := Option.map_eq_some_iff.mp h
    exact ⟨index, _, rfl⟩
  | _ => cases h

theorem inferLoop_replicate (attempts : Nat) (last : InferenceResult) :
    inferLoop (attempts + 1) (List.replicate (attempts + 1) last) = some last := by
  induction attempts with
  | zero => simp [inferLoop]
  | succ attempts ih =>
    rw [List.replicate_succ, inferLoop]
    split
    · rfl
    · exact ih

/-- The replies of the provider to each of the three attempts. -/
theorem exists_replies (i deferBy : Nat) {item : Nat} {chunk : BatchChunk} {items : List Json}
    {seen : List (Option BatchStatus)} {outcomes : List (Option Outcome)} {value : Json}
    {status : BatchStatus} {outcome : Outcome} (hvalue : items[item]? = some value)
    (hseen : seen[item]? = some (some status)) (hopen : outcomes[item]? = some none)
    (hs : status ≠ .cancelled) (h : p.row env chunk.offset value = some outcome) :
    ∃ replies,
      p.Resumes env (.processChunk i deferBy (.body chunk (.gathering items seen outcomes)))
        (.reply item replies) ∧
      Frame.step env s (.processChunk i deferBy (.body chunk (.gathering items seen outcomes)))
        (.reply item replies) = some (.goto (.processChunk i deferBy
          (.body chunk (.gathering items seen (outcomes.set item (some outcome)))))) := by
  cases value with
  | obj fields =>
    obtain ⟨index, hindex, rfl⟩ := Option.map_eq_some_iff.mp h
    refine ⟨List.replicate 3 (p.infer (p.up.request fields index)), ?_, ?_⟩
    · rintro _ _ _ _ _ _ fields' index' ⟨⟩ hvalue' hindex' result hmem
      obtain rfl : fields' = fields := by simpa [hvalue] using hvalue'.symm
      obtain rfl : index' = index := by simpa [hindex] using hindex'.symm
      exact List.eq_of_mem_replicate hmem
    · simp only [Frame.step, ProcessChunk.reply, ProcessChunk.Body.reply, hvalue, hseen, hopen,
        runOne, hindex, if_neg hs, inferLoop_replicate, Option.bind_eq_bind, Option.bind_some]
      rfl
  | _ => cases h

theorem runs_look {i deferBy item : Nat} {chunk : BatchChunk} {items : List Json}
    {seen : List (Option BatchStatus)} {outcomes : List (Option Outcome)}
    (hunseen : seen[item]? = some none)
    (hrun : p.Runs env s (.processChunk i deferBy (.body chunk
      (.gathering items (seen.set item (some s.db.batch.status)) outcomes))) s' ks) :
    p.Runs env s (.processChunk i deferBy (.body chunk (.gathering items seen outcomes)))
      s' ks := by
  have hmay : p.Resumes env
      (.processChunk i deferBy (.body chunk (.gathering items seen outcomes))) (.look item) :=
    trivial
  refine Runs.step (e := .goto _) hmay ?_ rfl hrun
  simp only [Frame.step, ProcessChunk.look, ProcessChunk.Body.look, hunseen]
  rfl

/-- Item after item, the gather ends with the rows that the provider makes. -/
theorem runs_gathering {i deferBy : Nat} {chunk : BatchChunk} {items todo : List Json}
    (before : List Outcome) {seen : List (Option BatchStatus)} {rest : List Outcome}
    (hs : s.db.batch.status ≠ .cancelled) (hitems : items.drop before.length = todo)
    (hseen : seen.drop before.length = List.replicate todo.length none)
    (hrows : todo.mapM (p.row env chunk.offset) = some rest)
    (hrun : ∀ seen, p.Runs env s (.processChunk i deferBy (.body chunk
      (.gathering items seen ((before ++ rest).map some)))) s' ks) :
    p.Runs env s (.processChunk i deferBy (.body chunk
      (.gathering items seen (before.map some ++ List.replicate todo.length none)))) s' ks := by
  induction todo generalizing before seen rest with
  | nil =>
    cases hrows
    simpa using hrun seen
  | cons value todo ih =>
    obtain ⟨outcome, rest, hrow, hrest, rfl⟩ := mapM_cons_eq_some hrows
    have hvalue : items[before.length]? = some value := by
      have := congrArg (·[0]?) hitems
      simpa using this
    have hopen : (before.map some ++ List.replicate (value :: todo).length none)[before.length]? =
        some none := by simp
    have hunseen : seen[before.length]? = some none := by
      have := congrArg (·[0]?) hseen
      simpa using this
    have hlooked : (seen.set before.length (some s.db.batch.status))[before.length]? =
        some (some s.db.batch.status) :=
      List.getElem?_set_self (List.getElem?_eq_some_iff.mp hunseen).1
    obtain ⟨replies, hmay, hstep⟩ := exists_replies i deferBy hvalue hlooked hopen hs hrow
    have hset : (before.map some ++ List.replicate (value :: todo).length none).set
        before.length (some outcome) =
          (before ++ [outcome]).map some ++ List.replicate todo.length none := by
      simp [List.replicate_succ]
    have hdrop : items.drop (before ++ [outcome]).length = todo := by
      rw [List.length_append, ← List.drop_drop, hitems]
      rfl
    have hunseen' : (seen.set before.length (some s.db.batch.status)).drop
        (before ++ [outcome]).length = List.replicate todo.length none := by
      rw [List.length_append, List.drop_set_of_lt (by simp), ← List.drop_drop, hseen]
      rfl
    rw [hset] at hstep
    exact runs_look hunseen
      (Runs.step hmay hstep rfl (ih _ hdrop hunseen' hrest (by simpa using hrun)))

/-- What a worker that holds the lease puts and commits. -/
theorem runs_body {i : Nat} (deferBy : Nat) {chunk row : BatchChunk} {rows : List Outcome}
    (hs : s.db.batch.status = .running) (hrow : s.db.chunks[i]? = some row)
    (hsegment : p.segment env chunk.place = some rows) :
    ∃ s', p.Runs env s (.processChunk i deferBy (.body chunk .reading)) s'
        [.queued (.checkBatchCompletion 0)] ∧
      s'.db.batch.status = .running ∧ ∃ row', row'.status = .succeeded ∧
      s'.db.chunks = s.db.chunks.set i row' := by
  obtain ⟨items, hread, h⟩ := Option.bind_eq_some_iff.mp hsegment
  obtain ⟨outcomes, hrows, h⟩ := Option.bind_eq_some_iff.mp h
  obtain rfl := Option.some.inj h
  simp only [BatchChunk.place] at hread hrows
  have hnone : outcomes.any (·.isCancelled) = false := by
    rw [List.any_eq_false]
    intro x hx
    obtain ⟨j, hj, rfl⟩ := List.getElem_of_mem hx
    have hrel := forall₂_of_mapM hrows
    obtain ⟨index, last, hx⟩ := exists_rowOf (hrel.get (hrel.length_eq ▸ hj) hj)
    rw [List.get_eq_getElem] at hx
    simp [hx, isCancelled_rowOf]
  have hall : (outcomes.map some).mapM id = some outcomes := by
    refine mapM_of_forall₂ (List.forall₂_map_left_iff.mpr ?_)
    exact List.forall₂_same.mpr fun _ _ => rfl
  let put : Put := .rows (.chunk i) (sortResults outcomes)
  let ok := okCount (sortResults outcomes)
  let fail := failCount (sortResults outcomes)
  let counters := recomputeBatchCounters (s.db.chunks.modify i (row.flush (row.succeed i ok fail)))
  let commit : Commit := .success i row (row.succeed i ok fail) counters
  refine ⟨{ s with db := commit.apply s.db, store := put.apply s.store }, ?_, ?_,
    row.succeed i ok fail, rfl, ?_⟩
  · refine Runs.goto (f := .processChunk i deferBy (.body chunk
      (.gathering items (List.replicate items.length none) (List.replicate items.length none))))
      ?_ ?_
    · simp only [Frame.next, ProcessChunk.step, ProcessChunk.Body.step, hread, Option.bind_eq_bind,
        Option.bind_some]
      rfl
    refine runs_gathering [] (by simp [hs]) rfl rfl hrows fun seen => ?_
    refine Runs.goto (f := .processChunk i deferBy (.body chunk (.writing (sortResults outcomes))))
      ?_ ?_
    · simp only [Frame.next, ProcessChunk.step, ProcessChunk.Body.step, List.nil_append, hall,
        Option.bind_eq_bind, Option.bind_some, ProcessChunk.afterGather, hnone,
        Bool.false_eq_true, if_false]
      rfl
    refine Runs.next (e := ⟨some (.processChunk i deferBy (.body chunk (.written ok fail))), none,
      some put, []⟩) rfl rfl ?_
    refine Runs.goto (f := .processChunk i deferBy (.body chunk (.loaded row ok fail))) ?_ ?_
    · simp only [Frame.next, ProcessChunk.step, ProcessChunk.Body.step, Effect.shared,
        Option.elim_none, hrow]
      rfl
    refine Runs.goto rfl (Runs.goto rfl ?_)
    refine Runs.next (e := ⟨some (.processChunk i deferBy (.body chunk .succeeded)), some commit,
      none, []⟩) rfl rfl ?_
    exact Runs.ends (e := { next := none, jobs := [.checkBatchCompletion 0] }) rfl rfl
  · exact hs
  · exact Commit.chunks_apply_of_row hrow rfl fun _ _ => rfl

/-- A chunk whose row is free is leased and succeeds. -/
theorem runs_processChunk {i : Nat} {row : BatchChunk} {rows : List Outcome}
    (hs : s.db.batch.status = .running) (hrow : s.db.chunks[i]? = some row)
    (hpending : row.status = .pending) (hsegment : p.segment env row.place = some rows) :
    ∃ s', p.Runs env s (.queued (.processChunk i 0)) s' [.queued (.checkBatchCompletion 0)] ∧
      s'.db.batch.status = .running ∧ ∃ row', row'.status = .succeeded ∧
      s'.db.chunks = s.db.chunks.set i row' := by
  let commit : Commit := .lease i row (row.lease env s.now)
  have hchunks : (commit.apply s.db).chunks = s.db.chunks.set i (row.lease env s.now) :=
    Commit.chunks_apply_of_row hrow rfl fun _ _ => rfl
  have hleased : (commit.apply s.db).chunks[i]? = some (row.lease env s.now) := by
    rw [hchunks, List.getElem?_set_self (List.getElem?_eq_some_iff.mp hrow).1]
  have hrunning : (commit.apply s.db).batch.status = .running := by
    rw [Commit.batch_apply]
    simp only [commit, Commit.onBatch]
    split <;> exact hs
  have hlease : p.segment env (row.lease env s.now).place = some rows := hsegment
  obtain ⟨s', hrun, hs', row', hdone, hset⟩ :=
    runs_body (s := { s with db := commit.apply s.db }) 0 hrunning hleased hlease
  refine ⟨s', ?_, hs', row', hdone, ?_⟩
  · refine Runs.goto (f := .processChunk i 0 .gotBatch) ?_ ?_
    · simp only [Frame.next, Frame.start, ProcessChunk.start, hs]
      rfl
    refine Runs.goto (f := .processChunk i 0 (.leased row s.now)) ?_ ?_
    · have hfree : row.refused env s.now = false := by simp [BatchChunk.refused, hpending]
      simp only [Frame.next, ProcessChunk.step, hrow, hfree]
      rfl
    exact Runs.next (e := ⟨some (.processChunk i 0 (.body (row.lease env s.now) .reading)),
      some commit, none, []⟩) rfl rfl hrun
  · rw [hset]
    show (commit.apply s.db).chunks.set i row' = _
    rw [hchunks, List.set_set]

/-- A chunk that has succeeded is refused. -/
theorem runs_refused {i : Nat} {row : BatchChunk} (hs : s.db.batch.status = .running)
    (hrow : s.db.chunks[i]? = some row) (hdone : row.status = .succeeded) :
    p.Runs env s (.queued (.processChunk i 0)) s [] := by
  refine Runs.goto (f := .processChunk i 0 .gotBatch) ?_ ?_
  · simp only [Frame.next, Frame.start, ProcessChunk.start, hs]
    rfl
  refine Runs.ends (e := .done) ?_ rfl
  simp only [Frame.next, ProcessChunk.step, hrow, BatchChunk.refused, hdone]
  rfl

/-! ## check_batch_completion and finalize_batch -/

theorem runs_check {deferBy : Nat} (hs : s.db.batch.status = .running) (hne : s.db.chunks ≠ [])
    (hdone : ∀ c ∈ s.db.chunks, c.status = .succeeded) :
    p.Runs env s (.queued (.checkBatchCompletion deferBy)) s [.queued .finalizeBatch] := by
  have active : s.db.batch.status.terminal = false := by rw [hs]; rfl
  have hsame : reclaimExpiredLeases s.now s.db.chunks = s.db.chunks := by
    refine (List.map_congr_left fun c hc => ?_).trans (List.map_id _)
    exact BatchChunk.reclaim_of_ne (by simp [hdone c hc])
  let commit : Commit := .check s.db.batch s.db.batch s.now
  have hmap : s.db.chunks.mapIdx (fun _ c => c.reclaim s.now) = s.db.chunks :=
    (List.ext_getElem? fun i => by simp [reclaimExpiredLeases]).trans hsame
  have happly : commit.apply s.db = s.db := by
    simp only [commit, Commit.apply, Commit.onBatch, Batch.flush_current, Commit.inserted,
      List.append_nil, Commit.onRow, hmap]
  have hall : (countByStatus s.db.chunks).succeeded = (countByStatus s.db.chunks).total := by
    rw [total_countByStatus]
    exact List.countP_eq_length.mpr fun c hc => by simp [hdone c hc]
  have hpos : 0 < (countByStatus s.db.chunks).total := by
    rw [total_countByStatus]
    exact List.length_pos_iff.mpr hne
  have hexhausted : (countByStatus s.db.chunks).exhausted = false := by
    simp only [StatusCounts.exhausted, StatusCounts.total] at hall ⊢
    simp
    omega
  refine Runs.goto (f := .checkBatchCompletion deferBy (.gotBatch ⟨s.db.batch, active⟩)) ?_ ?_
  · simp only [Frame.next, Frame.start, CheckCompletion.start, active]
    rfl
  refine Runs.goto rfl (Runs.goto rfl ?_)
  refine Runs.next (e := ⟨some (.checkBatchCompletion deferBy .enqueueFinalize), some commit,
    none, []⟩) (f := .checkBatchCompletion deferBy .enqueueFinalize) ?_ rfl ?_
  · simp only [Frame.next, CheckCompletion.step, hsame, hexhausted, StatusCounts.allSucceeded, hall,
      hpos]
    rfl
  · show p.Runs env { s with db := commit.apply s.db } _ s _
    rw [happly]
    exact Runs.ends (e := { next := none, jobs := [.finalizeBatch] }) rfl rfl

variable (p env) in
theorem runs_parts (snap : Finalize.Snapshot) {keys : List ObjectKey}
    (parts : List (List Outcome)) (hkeys : ∀ key ∈ keys, s.store.rows key ≠ none) :
    ∃ s', p.Runs env s (.finalizeBatch (.gathering snap keys parts)) s'
        [.queued (.deliverBatchWebhook .completed 0)] ∧ s'.db =
        (Commit.finalize snap.batch (Finalize.complete s.now snap.batch)).apply s.db := by
  induction keys generalizing parts with
  | nil =>
    refine ⟨_, Runs.next (e := ⟨some (.finalizeBatch (.concatenated snap)), none,
      some (.rows .results parts.flatten), []⟩) rfl rfl <|
      Runs.next (e := ⟨some (.finalizeBatch (.committing snap)), none, some (.manifest _), []⟩)
        rfl rfl <| Runs.next (e := ⟨some (.finalizeBatch .announce), some _, none, []⟩) rfl rfl <|
      Runs.ends (e := { next := none, jobs := [.deliverBatchWebhook .completed 0] }) rfl rfl, rfl⟩
  | cons key keys ih =>
    obtain ⟨hkey, hkeys⟩ := List.forall_mem_cons.mp hkeys
    obtain ⟨part, hpart⟩ := Option.ne_none_iff_exists'.mp hkey
    obtain ⟨s', hrun, hdb⟩ := ih (parts ++ [part]) hkeys
    refine ⟨s', Runs.goto ?_ hrun, hdb⟩
    simp only [Frame.next, Finalize.step, hpart]
    rfl

variable (p env) in
theorem runs_finalize (hs : s.db.batch.status = .running) (hne : s.db.chunks ≠ [])
    (hdone : ∀ c ∈ s.db.chunks, c.status = .succeeded)
    (hobjects : ∀ c ∈ s.db.chunks, ∀ key, c.resultKey = some key → s.store.rows key ≠ none) :
    ∃ s', p.Runs env s (.queued .finalizeBatch) s'
      [.queued (.deliverBatchWebhook .completed 0)] ∧ s'.db.batch.status = .completed := by
  have unfinished : ¬ (s.db.batch.status = .completed ∨ s.db.batch.status = .cancelled) := by
    simp [hs]
  have complete : ¬ (s.db.chunks = [] ∨ ∃ c ∈ s.db.chunks, c.status ≠ .succeeded) := by
    push Not
    exact ⟨hne, hdone⟩
  have hkeys : ∀ key ∈ s.db.chunks.filterMap (·.resultKey), s.store.rows key ≠ none := by
    intro key hkey
    obtain ⟨c, hc, hkey⟩ := List.mem_filterMap.mp hkey
    exact hobjects c hc key hkey
  obtain ⟨s', hrun, hdb⟩ := runs_parts p env
    ⟨s.db.batch, s.db.chunks, unfinished, complete⟩ [] hkeys
  refine ⟨s', Runs.goto (f := .finalizeBatch (.gotBatch s.db.batch unfinished)) ?_ <|
    Runs.goto ?_ hrun, ?_⟩
  · simp only [Frame.next, Frame.start, Finalize.start, dif_neg unfinished]
    rfl
  · simp only [Frame.next, Finalize.step, dif_neg complete]
    rfl
  · rw [hdb, Commit.batch_apply]
    simp [Commit.onBatch, Finalize.complete]

/-! ## All chunks -/

/-- The chunks that have not succeeded are free, and their jobs are in `todo`. -/
structure Left (todo : List Frame) (s : Shared) : Prop where
  running : s.db.batch.status = .running
  rows : s.db.chunks ≠ []
  jobs : ∀ k ∈ todo, ∃ i < s.db.chunks.length, k = .queued (.processChunk i 0)
  free : ∀ c ∈ s.db.chunks, c.status = .pending ∨ c.status = .succeeded
  left : ∀ (i : Nat) (row : BatchChunk), s.db.chunks[i]? = some row → row.status ≠ .succeeded →
    .queued (.processChunk i 0) ∈ todo

theorem segment_of_row {rows : List Outcome} {i : Nat} {row : BatchChunk} (hv : Valid env s)
    (hrows : p.results env = some rows) (hrow : s.db.chunks[i]? = some row) :
    ∃ rows, p.segment env row.place = some rows := by
  obtain ⟨parts, hparts, -⟩ := Option.map_eq_some_iff.mp hrows
  obtain ⟨hi, hplan⟩ := List.getElem?_eq_some_iff.mp (hv.plan_of_row hrow)
  have hrel := forall₂_of_mapM hparts
  have hentry := hrel.get hi (hrel.length_eq ▸ hi)
  rw [List.get_eq_getElem, hplan] at hentry
  exact ⟨_, hentry⟩

theorem Left.solo {k : Frame} {todo : List Frame} {rows : List Outcome} (h : Left (k :: todo) s)
    (hv : Valid env s) (hrows : p.results env = some rows) :
    ∃ s' ks, p.Runs env s k s' ks ∧ Left todo s' := by
  obtain ⟨⟨i, hi, rfl⟩, hjobs⟩ := List.forall_mem_cons.mp h.jobs
  have hrow : s.db.chunks[i]? = some s.db.chunks[i] := List.getElem?_eq_getElem hi
  have later {j : Nat} {row : BatchChunk} (hr : s.db.chunks[j]? = some row)
      (hne : row.status ≠ .succeeded) (hij : i ≠ j) : .queued (.processChunk j 0) ∈ todo := by
    rcases List.mem_cons.mp (h.left j row hr hne) with heq | hmem
    · cases heq
      exact absurd rfl hij
    · exact hmem
  rcases h.free _ (List.getElem_mem hi) with hpending | hdone
  · obtain ⟨rows, hsegment⟩ := segment_of_row hv hrows hrow
    obtain ⟨s', hrun, hs', row', hdone', hset⟩ :=
      runs_processChunk h.running hrow hpending hsegment
    refine ⟨s', _, hrun, hs', ?_, ?_, fun c hc => ?_, fun j row hr hne => ?_⟩
    · simpa [hset] using h.rows
    · rwa [hset, List.length_set]
    · rw [hset] at hc
      rcases List.mem_or_eq_of_mem_set hc with hc | rfl
      · exact h.free c hc
      · exact .inr hdone'
    · rw [hset, List.getElem?_set] at hr
      split at hr
      · obtain rfl := Option.some.inj hr
        exact absurd hdone' hne
      · exact later hr hne ‹_›
  · refine ⟨s, _, runs_refused h.running hrow hdone, h.running, h.rows, hjobs, h.free,
      fun j row hr hne => later hr hne ?_⟩
    rintro rfl
    obtain rfl := Option.some.inj (hrow.symm.trans hr)
    exact hne hdone

/-! ## From any reachable world -/

/-- Time enough for every lease to run out. -/
theorem exists_expiry (chunks : List BatchChunk) (now : Int) :
    ∃ seconds : Nat, ∀ c ∈ chunks, ∀ t ∈ c.leasedUntil, t < now + seconds := by
  induction chunks with
  | nil => exact ⟨0, by simp⟩
  | cons c chunks ih =>
    obtain ⟨seconds, hlater⟩ := ih
    refine ⟨max seconds ((c.leasedUntil.getD now - now).toNat + 1), ?_⟩
    rw [List.forall_mem_cons]
    refine ⟨fun t ht => ?_, fun c' hc' t ht => ?_⟩
    · rw [show c.leasedUntil = some t from ht, Option.getD_some]
      omega
    · have := hlater c' hc' t ht
      omega

/-- When the leases have run out, the rows that orchestrate_batch leaves are free. -/
theorem free_of_reclaim {rows : List BatchChunk} (hd : s.db.Sound env)
    (active : s.db.batch.status.terminal = false)
    (hexpired : ∀ c ∈ s.db.chunks, ∀ t ∈ c.leasedUntil, t < s.now)
    (hrows : createChunkRows env.spec s.db.chunks = .ok rows) :
    ∀ c ∈ rows, (c.reclaim s.now).status = .pending ∨ (c.reclaim s.now).status = .succeeded := by
  intro c hc
  by_cases he : s.db.chunks = []
  · rw [he] at hrows
    obtain rfl := eq_of_createChunkRows hrows
    obtain ⟨entry, -, rfl⟩ := List.mem_map.mp hc
    exact .inl rfl
  · rw [createChunkRows, if_pos he, Except.ok.injEq] at hrows
    subst hrows
    have hended := fun hs => (hd.failed c hc hs).2
    cases hs : c.status with
    | failed => simp [hended hs] at active
    | leased =>
      obtain ⟨t, ht⟩ := Option.ne_none_iff_exists'.mp ((hd.leased c hc).mp hs)
      have hlate : c.expired s.now = true := by
        simp [BatchChunk.expired, hs, ht, hexpired c hc t ht]
      exact .inl (by rw [BatchChunk.reclaim, if_pos hlate]; rfl)
    | pending => exact .inl (by rw [BatchChunk.reclaim_of_ne (by simp [hs]), hs])
    | succeeded => exact .inr (by rw [BatchChunk.reclaim_of_ne (by simp [hs]), hs])

/-- The rows that orchestrate_batch leaves, with the jobs that it has enqueued. -/
theorem left_of_orchestrate {rows : List BatchChunk} (hv : Valid env s) (hd : s.db.Sound env)
    (active : s.db.batch.status.terminal = false)
    (hexpired : ∀ c ∈ s.db.chunks, ∀ t ∈ c.leasedUntil, t < s.now)
    (hrows : createChunkRows env.spec s.db.chunks = .ok rows)
    (hs' : s'.db.batch.status = .running) (hchunks : s'.db.chunks = rows.map (·.reclaim s.now)) :
    Left (((rows.filter fun c => c.status ≠ .succeeded).map (·.chunkIndex)).map
      fun i => .queued (.processChunk i 0)) s' := by
  have hindex {i : Nat} {c : BatchChunk} (hc : rows[i]? = some c) : c.chunkIndex = i := by
    by_cases he : s.db.chunks = []
    · rw [he] at hrows
      obtain ⟨hplan, rfl⟩ := planned_of_createChunkRows hrows
      rw [List.getElem?_map] at hc
      obtain ⟨entry, hentry, rfl⟩ := Option.map_eq_some_iff.mp hc
      exact (isPlan_of_planChunks (env.spec.totalItems_lt.trans (by norm_num)) hplan).index hentry
    · rw [createChunkRows, if_pos he, Except.ok.injEq] at hrows
      subst hrows
      exact hv.chunkIndex_eq hc
  have hne : rows ≠ [] := by
    by_cases he : s.db.chunks = []
    · exact ne_nil_of_createChunkRows (he ▸ hrows)
    · rw [createChunkRows, if_pos he, Except.ok.injEq] at hrows
      exact hrows ▸ he
  refine ⟨hs', by simpa [hchunks] using hne, fun k hk => ?_, ?_, fun i row hrow hne => ?_⟩
  · obtain ⟨i, hi, rfl⟩ := List.mem_map.mp hk
    obtain ⟨c, hc, rfl⟩ := List.mem_map.mp hi
    obtain ⟨j, hj⟩ := List.getElem?_of_mem (List.mem_filter.mp hc).1
    refine ⟨c.chunkIndex, ?_, rfl⟩
    rw [hchunks, List.length_map, hindex hj]
    exact (List.getElem?_eq_some_iff.mp hj).1
  · rw [hchunks]
    exact List.forall_mem_map.mpr (free_of_reclaim hd active hexpired hrows)
  · rw [hchunks, List.getElem?_map] at hrow
    obtain ⟨c, hc, rfl⟩ := Option.map_eq_some_iff.mp hrow
    refine List.mem_map.mpr ⟨i, List.mem_map.mpr ⟨c, List.mem_filter.mpr ⟨List.mem_of_getElem? hc,
      ?_⟩, hindex hc⟩, rfl⟩
    have hsame : c.status ≠ .succeeded := fun hdone => hne <| by
      rw [BatchChunk.reclaim_of_ne (by simp [hdone]), hdone]
    simpa using hsame

/-- A transaction is entered by a statement that begins one. -/
theorem not_busy_of_next {e : Effect Frame} {f : Frame} (htouch : frame.touches = false)
    (h : frame.next env s = some e) (hm : f ∈ e.next) : f.busy = false := by
  cases frame with
  | queued | cancelBatch => cases htouch
  | orchestrateBatch pc =>
    cases h
    cases pc with
    | enqueueing chunkIds => cases chunkIds <;> cases hm; rfl
    | _ => cases htouch
  | processChunk i deferBy pc =>
    cases pc with
    | body chunk pc =>
      cases pc with
      | reading =>
        obtain ⟨e₁, h₁, rfl⟩ := Option.map_eq_some_iff.mp h
        obtain ⟨e₂, h₂, rfl⟩ := Option.map_eq_some_iff.mp h₁
        obtain ⟨items, -, h₃⟩ := Option.bind_eq_some_iff.mp h₂
        cases h₃
        cases hm
        rfl
      | writing => cases h; cases hm; rfl
      | succeeded => cases h; cases hm
      | _ => cases htouch
    | handler chunk exc pc =>
      cases pc with
      | announceFailed | reEnqueue => cases h; cases hm
      | _ => cases htouch
    | _ => cases htouch
  | checkBatchCompletion deferBy pc =>
    cases h
    cases pc with
    | announceFailed | enqueueFinalize | repoll => cases hm
    | _ => cases htouch
  | finalizeBatch pc =>
    cases pc with
    | incomplete | announce => cases h; cases hm
    | _ => cases htouch
  | deliverBatchWebhook event deferBy pc =>
    cases pc with
    | backingOff => cases h
    | _ => cases htouch

/-- One job at most is inside a transaction. -/
theorem singleTrack (env : Env) : (workers env).SingleTrack Frame.busy Frame.touches where
  step {c s frame s' ks} h := by
    obtain ⟨e, he, hr⟩ := step_iff.mp h
    cases hr
    refine ⟨?_, fun htouch => ?_⟩
    · rw [Effect.frames, List.countP_append, countP_eq_zero_iff_rest.mpr (idle_queued e.jobs)]
      exact List.countP_le_length.trans (by cases e.next <;> simp)
    · refine forall_frames_of_step he (fun _ => rfl) (fun hn f hm => not_busy_of_next htouch hn hm)
        ?_ ?_ ?_ ?_
      · intros
        rfl
      · intros
        rfl
      · rintro event deferBy loaded ok rfl
        cases htouch
      · intros
        rfl
  env {e s s' ks} h := by
    cases e <;> cases h
    · simp [Frame.busy]
    · simp

theorem exists_createChunkRows (hsize : 1 ≤ env.spec.chunkSize) (existing : List BatchChunk) :
    ∃ rows, createChunkRows env.spec existing = .ok rows := by
  unfold createChunkRows
  split
  · exact ⟨_, rfl⟩
  · rw [planChunks, if_neg (by omega)]
    exact ⟨_, rfl⟩

variable (p env) in
/-- The worker inside a transaction is lost. -/
theorem reach_idle (hone : w.pool.countP Frame.busy ≤ 1) :
    ∃ w', (workers env).Reach (fun v m => Atomic v m ∧ p.Undisturbed env v m) w w' ∧
      w'.shared = w.shared ∧ AtRest Frame.busy w' := by
  refine reach_rest .crash hone (admits p env) fun s frame hbusy => ⟨hbusy, ?_⟩
  refine ⟨frame.crashed.toList, step_iff.mpr ⟨{ next := frame.crashed }, rfl, ?_⟩, ?_⟩
  · simp [Effect.shared, Effect.frames]
  · cases frame <;> simp [Frame.crashed, Frame.busy]

/-- All chunks have succeeded: the check and what it enqueues complete the batch. -/
theorem reach_completed {deferBy : Nat} {rest : List Frame}
    (hw : (workers env).Reach Atomic (created env now) w) (hleft : Left [] w.shared)
    (hpool : w.pool.Perm (.queued (.checkBatchCompletion deferBy) :: rest))
    (hrest : ∀ frame ∈ rest, frame.busy = false) :
    ∃ w', (workers env).Reach (fun v m => Atomic v m ∧ p.Undisturbed env v m) w w' ∧
      w'.shared.db.batch.status = .completed := by
  have hdone : ∀ c ∈ w.shared.db.chunks, c.status = .succeeded := by
    intro c hc
    by_contra hopen
    obtain ⟨i, hi⟩ := List.getElem?_of_mem hc
    cases hleft.left i c hi hopen
  obtain ⟨w₁, hr₁, hs₁, hpool₁⟩ :=
    (runs_check hleft.running hleft.rows hdone).reach (admits p env) rfl hpool hrest
  have hobjects : ∀ c ∈ w₁.shared.db.chunks, ∀ key, c.resultKey = some key →
      w₁.shared.store.rows key ≠ none := by
    intro c hc key hkey
    rw [hs₁] at hc ⊢
    have hrow := (valid_of_reach hw).getElem?_of_mem hc
    obtain rfl := (valid_of_reach hw).key hrow key hkey
    exact objects_of_reach hw _ c hrow (hdone c hc)
  obtain ⟨s', hrun, hcompleted⟩ := runs_finalize p env (s := w₁.shared)
    (by rw [hs₁]; exact hleft.running) (by rw [hs₁]; exact hleft.rows) (by rwa [hs₁]) hobjects
  have hfront : w₁.pool.Perm (.queued .finalizeBatch :: rest) :=
    hpool₁.trans (List.perm_append_singleton _ _)
  obtain ⟨w', hr, hs', -⟩ := hrun.reach (admits p env) rfl hfront hrest
  exact ⟨w', hr₁.trans hr, by rw [hs']; exact hcompleted⟩

theorem completes {rows : List Outcome}
    (h : (workers env).Reach Atomic (created env now) w)
    (active : w.shared.db.batch.status.terminal = false) (hsize : 1 ≤ env.spec.chunkSize)
    (hrows : p.results env = some rows) :
    ∃ w', p.Rescues env w w' ∧ w'.shared.db.batch.status = .completed := by
  have hone : w.pool.countP Frame.busy ≤ 1 :=
    (singleTrack env).countP_le_one h (by simp [created, Frame.busy])
  obtain ⟨w₁, hr₁, hs₁, hidle₁⟩ := reach_idle p env hone
  obtain ⟨seconds, hexpiry⟩ := exists_expiry w₁.shared.db.chunks w₁.shared.now
  let s₂ : Shared := { w₁.shared with now := w₁.shared.now + seconds }
  let w₂ : World Shared Frame := ⟨s₂, w₁.pool ++ [.queued .orchestrateBatch]⟩
  have hv₁ : (workers env).Reach (fun v m => Atomic v m ∧ p.Undisturbed env v m) w ⟨s₂, w₁.pool⟩ :=
    .step (m := .env (.tick seconds)) hr₁ ⟨trivial, trivial⟩ (by simp [fire, workers, s₂])
  have hf₂ : (workers env).fire ⟨s₂, w₁.pool⟩ (.env (.arrive .orchestrateBatch)) = some w₂ := rfl
  have hreach {v : World Shared Frame}
      (hr : (workers env).Reach (fun v m => Atomic v m ∧ p.Undisturbed env v m) w₂ v) :
      (workers env).Reach Atomic (created env now) v :=
    h.trans ((Rescues.reach ⟨_, _, hv₁, hf₂, hr⟩).mono fun _ _ hm => hm.1)
  have hw₂ := hreach .refl
  obtain ⟨chunks, hchunks⟩ := exists_createChunkRows hsize s₂.db.chunks
  have active₂ : s₂.db.batch.status.terminal = false := by
    simpa only [s₂, hs₁] using active
  obtain ⟨s₃, hrun, hrunning, hrows₃, -⟩ := runs_orchestrate (p := p) active₂ hchunks
  obtain ⟨w₃, hr₃, hs₃, hpool₃⟩ := hrun.reach (admits p env) (w := w₂) rfl
    (List.perm_append_singleton _ _) hidle₁
  have hleft := left_of_orchestrate (valid_of_reach hw₂) (sound_of_reach hw₂) active₂ hexpiry
    hchunks hrunning hrows₃
  have hidle₃ : AtRest Frame.busy w₃ := fun frame hm =>
    (List.mem_append.mp (hpool₃.mem_iff.mp hm)).elim (hidle₁ frame) (hrun.at_rest frame)
  have hfront := hpool₃.trans List.perm_append_comm
  rw [List.append_assoc] at hfront
  obtain ⟨w₄, news, hr₄, hleft₄, hpool₄, hidle₄⟩ := Solo.reach_all (A := Left)
    (admits p env) (fun v k todo hv hl => hl.solo (valid_of_reach (hreach hv)) hrows) hr₃
    (hs₃ ▸ hleft) hfront hidle₃
  obtain ⟨w', hr, hcompleted⟩ := reach_completed (p := p) (hreach (hr₃.trans hr₄)) hleft₄
    hpool₄ fun frame hm => hidle₄ frame (hpool₄.mem_iff.mpr (List.mem_cons_of_mem _ hm))
  exact ⟨w', ⟨_, _, hv₁, hf₂, (hr₃.trans hr₄).trans hr⟩, hcompleted⟩

end Responder

open Responder

variable {p : Responder} {env : Env} {now : Int} {w : World Shared Frame}

/-- Whatever has happened to a batch that has not ended: one more orchestrate_batch can complete
it, and its results are the provider's, unless the prompts themselves cannot be processed. -/
theorem rescuable_iff
    (h : (workers env).Reach (fun v m => Atomic v m ∧ p.Answers env v m) (created env now) w)
    (active : w.shared.db.batch.status.terminal = false) :
    (∃ w', p.Rescues env w w' ∧ w'.shared.db.batch.status = .completed ∧
      w'.shared.store.body .results = (p.results env).map bodyOf) ↔
    1 ≤ env.spec.chunkSize ∧ p.results env ≠ none := by
  have hatomic : (workers env).Reach Atomic (created env now) w := h.mono fun _ _ hm => hm.1
  have results {w' : World Shared Frame} (hr : p.Rescues env w w')
      (hc : w'.shared.db.batch.status = .completed) : ∃ rows, p.results env = some rows ∧
        w'.shared.store.rows .results = some rows ∧ env.plan ≠ [] := by
    have hw' : (workers env).Reach (p.Answers env) (created env now) w' :=
      (h.trans hr.reach).mono fun _ _ hm => hm.2
    have hv := valid_of_reach hw'
    obtain ⟨key, hkey⟩ := Option.ne_none_iff_exists'.mp (hv.completed hc)
    obtain ⟨rfl, hsome, c, hrow⟩ := hv.resultsKey hkey
    obtain ⟨rows, hrows⟩ := Option.isSome_iff_exists.mp hsome
    exact ⟨rows, (stored_of_reach hw').1.results hrows, hrows,
      fun he => by simpa [he] using hv.plan_of_row hrow⟩
  constructor
  · rintro ⟨w', hr, hc, -⟩
    obtain ⟨rows, hrows, -, hplan⟩ := results hr hc
    obtain ⟨size, hsize, hpos, -⟩ := env.plan_eq hplan
    exact ⟨by omega, by simp [hrows]⟩
  · rintro ⟨hsize, hsome⟩
    obtain ⟨rows, hrows⟩ := Option.ne_none_iff_exists'.mp hsome
    obtain ⟨w', hr, hc⟩ := completes hatomic active hsize hrows
    obtain ⟨rows', hrows', hbody, -⟩ := results hr hc
    exact ⟨w', hr, hc, by rw [Store.body, hbody, hrows']⟩

/-- A chunk is under way when all jobs are lost. -/
def abandonedRun : List Moves :=
  steps 0 6 ++ steps 1 1 ++ steps 0 1 ++ steps 2 3 ++ List.replicate 3 (.act 0 .timeout)

theorem rescuable_iff_abandoned : ∃ w,
    (workers uploadedEnv).Reach (fun v m => Atomic v m ∧ greeting.Answers uploadedEnv v m)
      (created uploadedEnv 0) w ∧ w.pool = [] ∧
    ∃ w', greeting.Rescues uploadedEnv w w' ∧ w'.shared.db.batch.status = .completed ∧
      w'.shared.store.body .results = (greeting.results uploadedEnv).map bodyOf := by
  have hrun : ((workers uploadedEnv).run Atomic (created uploadedEnv 0)
      (abandonedRun.map greeted)).map (fun w => (w.pool.isEmpty, w.shared.db.batch.status)) =
      some (true, .running) := by decide +kernel
  have hresults : (greeting.results uploadedEnv).isSome = true := by decide +kernel
  obtain ⟨w, hw, hend⟩ := Option.map_eq_some_iff.mp hrun
  obtain ⟨hpool, hstatus⟩ := Prod.mk.inj hend
  have halong : (workers uploadedEnv).Along (fun v m _ => greeting.Answers uploadedEnv v m)
      (created uploadedEnv 0) (abandonedRun.map greeted) :=
    Along.of_mem .refl <| List.forall_mem_map.mpr fun m _ _ _ => greeting_answers m
  have hreach := halong.reach hw
  exact ⟨w, hreach, List.isEmpty_iff.mp hpool, (rescuable_iff hreach (by rw [hstatus]; rfl)).mpr
    ⟨by decide, fun hnone => by simp [hnone] at hresults⟩⟩

end BatchInference
