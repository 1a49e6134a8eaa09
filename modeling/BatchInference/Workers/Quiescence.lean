import BatchInference.Workers.Deliveries
import BatchInference.Workers.Represented

/-!
# The jobs of a batch that has ended

When a batch has ended its jobs come to rest. What is still under way may go on, enqueue checks,
deliveries and even finalize_batch, and raise anywhere; but no job keeps itself alive: the check
polls no more, and a failing webhook is tried again only while the row's attempts last. Each step
lowers a potential, in which a queued delivery weighs as much as all the attempts that are left.
-/

namespace BatchInference

open JobPool System

variable {env : Env} {now : Int} {s : Shared} {frame : Frame} {c : Choice} {e : Effect Frame}
  {v v' w w' : World Shared Frame} {m : Moves}

/-! ## What a job may still cost -/

/-- What bounds the rest of a job: chunk rows, items and the attempts that a webhook has left. -/
structure Room where
  chunks : Nat
  items : Nat
  attempts : Nat

def room (env : Env) (s : Shared) : Room where
  chunks := s.db.chunks.length
  items := env.spec.totalItems
  attempts := (env.webhookMaxAttempts - s.db.batch.webhookAttempts).toNat

namespace Room

variable (r : Room)

/-- A queued delivery, with the attempts that may follow. -/
def delivery : Nat := 4 * r.attempts + 4

/-- A queued finalize_batch, with the delivery that it enqueues. -/
def finalize : Nat := r.chunks + r.delivery + 7

def job : Job → Nat
  | .orchestrateBatch | .processChunk .. | .checkBatchCompletion _ | .reclaimLeasesCron => 1
  | .finalizeBatch => r.finalize
  | .deliverBatchWebhook .. => r.delivery
  | .cancelBatch => 2

def body : ProcessChunk.Body → Nat
  | .reading => r.delivery + 13 + 2 * r.items
  | .gathering _ seen outcomes =>
    r.delivery + 12 + seen.countP (·.isNone) + outcomes.countP (·.isNone)
  | .cancelling => r.delivery + 7
  | .cancelLoaded _ => r.delivery + 6
  | .writing _ => r.delivery + 11
  | .written .. => r.delivery + 10
  | .loaded .. => r.delivery + 9
  | .flushed .. => r.delivery + 8
  | .recomputed .. => r.delivery + 7
  | .succeeded => r.delivery + 6

def handler : ProcessChunk.Handler → Nat
  | .failing => r.delivery + 5
  | .loadedChunk _ => r.delivery + 4
  | .loadedBatch .. => r.delivery + 3
  | .announceFailed => r.delivery + 1
  | .reEnqueue => 2

def check : CheckCompletion.Pc → Nat
  | .gotBatch _ | .reclaimed .. | .counted .. => 0
  | .announceFailed => r.delivery + 1
  | .enqueueFinalize => r.finalize + 1
  | .selectPending => 2 * r.chunks + 4
  | .requeueing _ todo => 2 * todo.length + 3
  | .repoll => 2

def finalizing : Finalize.Pc → Nat
  | .gotBatch .. => r.chunks + r.delivery + 6
  | .incomplete => 2
  | .gathering _ keys _ => keys.length + r.delivery + 5
  | .concatenated _ => r.delivery + 4
  | .committing _ => r.delivery + 3
  | .announce => r.delivery + 1

def delivering : DeliverWebhook.Pc → Nat
  | .posting _ => 4 * r.attempts + 3
  | .posted .. => 4 * r.attempts + 2
  | .backingOff _ => 4 * r.attempts + 5

/-- The steps that a job may still take, with those of the jobs that it leads to. A job that has
passed the guard of a batch that was open is not counted. -/
def cost : Frame → Nat
  | .queued job => r.job job
  | .orchestrateBatch (.enqueueing chunkIds) => 2 * chunkIds.length + 2
  | .orchestrateBatch _ => 0
  | .processChunk _ _ pc => match pc with
    | .gotBatch | .leased .. => 0
    | .body _ pc => r.body pc
    | .handler _ _ pc => r.handler pc
  | .checkBatchCompletion _ pc => r.check pc
  | .finalizeBatch pc => r.finalizing pc
  | .deliverBatchWebhook _ _ pc => r.delivering pc
  | .cancelBatch _ => 1

def total (frames : List Frame) : Nat := (frames.map r.cost).sum

end Room

/-- The queue runs the job again. -/
def Choice.restarts : Choice → Bool
  | .crash => true
  | _ => false

/-- The job has passed its guard, and its transaction is open. -/
def Frame.admitted : Frame → Bool
  | .orchestrateBatch pc => match pc with
    | .enqueueing _ => false
    | _ => true
  | .processChunk _ _ pc => match pc with
    | .gotBatch | .leased .. => true
    | _ => false
  | .checkBatchCompletion _ pc => match pc with
    | .gotBatch _ | .reclaimed .. | .counted .. => true
    | _ => false
  | _ => false

/-- A batch with a job inside such a transaction has not ended. -/
theorem not_admitted_of_terminal {db : Db} {t : Int} (hs : frame.Snapshot env db t)
    (ht : db.batch.status.terminal = true) : frame.admitted = false := by
  cases frame with
  | orchestrateBatch pc =>
    cases pc with
    | enqueueing => rfl
    | gotBatch loaded => simp [← show loaded.row = db.batch from hs, loaded.not_terminal] at ht
    | planned loaded | reclaimed loaded => simp [← hs.1, loaded.not_terminal] at ht
  | processChunk i deferBy pc =>
    cases pc with
    | gotBatch => simp [show db.batch.status.terminal = false from hs] at ht
    | leased => simp [hs.1] at ht
    | body | handler => rfl
  | checkBatchCompletion deferBy pc =>
    cases pc with
    | gotBatch loaded => simp [← show loaded.row = db.batch from hs, loaded.not_terminal] at ht
    | reclaimed loaded | counted loaded => simp [← hs.1, loaded.not_terminal] at ht
    | _ => rfl
  | _ => rfl

namespace Room

variable {r r' : Room}

theorem total_frames (r : Room) (e : Effect Frame) :
    r.total e.frames = e.next.elim 0 r.cost + (e.jobs.map r.job).sum := by
  rw [total, Effect.frames, List.map_append, List.sum_append, List.map_map]
  congr 1
  cases e.next <;> simp

theorem cost_mono (hchunks : r'.chunks = r.chunks) (hitems : r'.items = r.items)
    (hattempts : r'.attempts ≤ r.attempts) (frame : Frame) : r'.cost frame ≤ r.cost frame := by
  have hdelivery : r'.delivery ≤ r.delivery := by
    simp only [delivery]
    omega
  have hfinalize : r'.finalize ≤ r.finalize := by
    simp only [finalize]
    omega
  cases frame with
  | queued job => cases job <;> first | exact le_rfl | exact hdelivery | exact hfinalize
  | orchestrateBatch pc => cases pc <;> exact le_rfl
  | processChunk i deferBy pc =>
    cases pc with
    | body chunk pc => cases pc <;> simp only [cost, body] <;> omega
    | handler chunk exc pc => cases pc <;> simp only [cost, handler] <;> omega
    | gotBatch | leased => exact le_rfl
  | checkBatchCompletion deferBy pc => cases pc <;> simp only [cost, check] <;> omega
  | finalizeBatch pc => cases pc <;> simp only [cost, finalizing] <;> omega
  | deliverBatchWebhook event deferBy pc =>
    cases pc <;> simp only [cost, delivering] <;> omega
  | cancelBatch => exact le_rfl

theorem failing_lt_body (r : Room) (pc : ProcessChunk.Body) :
    r.handler .failing < r.body pc := by
  cases pc <;> simp only [handler, body] <;> omega

theorem cost_pos (h : frame.admitted = false) : 0 < r.cost frame := by
  cases frame with
  | queued job => cases job <;> simp [cost, job, finalize, delivery]
  | orchestrateBatch pc =>
    cases pc with
    | enqueueing => exact Nat.succ_pos _
    | _ => cases h
  | processChunk i deferBy pc =>
    cases pc with
    | body chunk pc => exact Nat.zero_lt_of_lt (r.failing_lt_body pc)
    | handler chunk exc pc => cases pc <;> simp [cost, handler]
    | gotBatch | leased => cases h
  | checkBatchCompletion deferBy pc =>
    cases pc with
    | gotBatch | reclaimed | counted => cases h
    | _ => simp [cost, check]
  | finalizeBatch pc => cases pc <;> simp [cost, finalizing]
  | deliverBatchWebhook event deferBy pc => cases pc <;> simp [cost, delivering]
  | cancelBatch => exact Nat.one_pos

end Room

/-! ## One step -/

open Room in
/-- A job from the queue: the guards refuse what a batch that has ended has no use for. -/
theorem total_start_lt {r : Room} (ht : s.db.batch.status.terminal = true) (job : Job) :
    r.total (Frame.start env s job).frames < r.job job := by
  rw [total_frames]
  cases job with
  | orchestrateBatch => simp [Frame.start, Orchestrate.start, ht, Effect.map, Effect.done, Room.job]
  | processChunk => simp [Frame.start, ProcessChunk.start, ht, Effect.map, Effect.done, Room.job]
  | checkBatchCompletion =>
    simp [Frame.start, CheckCompletion.start, ht, Effect.map, Effect.done, Room.job]
  | finalizeBatch =>
    simp only [Frame.start, Finalize.start]
    split <;> simp [Effect.map, Effect.done, Effect.goto, Room.job, finalize, cost, finalizing]
  | deliverBatchWebhook =>
    simp only [Frame.start, DeliverWebhook.start]
    split <;> simp [Effect.map, Effect.done, Effect.goto, Room.job, delivery, cost, delivering]
  | reclaimLeasesCron => simp [Frame.start, Room.job]
  | cancelBatch => simp [Frame.start, Effect.goto, Room.job, cost]

theorem total_orchestrate_lt {r : Room} (chunkIds : List Nat) :
    r.total ((Orchestrate.step env s (.enqueueing chunkIds)).map .orchestrateBatch).frames <
      r.cost (.orchestrateBatch (.enqueueing chunkIds)) := by
  rw [Room.total_frames]
  cases chunkIds with
  | nil => simp [Orchestrate.step, Effect.map, Room.cost, Room.job]
  | cons i chunkIds =>
    simp [Orchestrate.step, Effect.map, Room.cost, Room.job]
    omega

/-- A chunk has no more items than the input has lines. -/
theorem length_items_le {offset limit : Int} {items : List Json}
    (h : readLineRange env.loads (env.reads env.spec.prompts) offset limit = some items) :
    items.length ≤ env.spec.totalItems := by
  have hlength := length_readLoop h
  have htotal : (streamLines (env.reads env.spec.prompts)).length = env.spec.totalItems := by
    rw [streamLines_eq, env.flatten_reads, env.spec.lines_prompts]
  omega

open Room in
theorem total_body_lt {i deferBy : Nat} {chunk : BatchChunk} {pc : ProcessChunk.Body}
    {e : Effect ProcessChunk.Body} (h : pc.step env s i chunk = some e) :
    (room env s).total ((e.map (.body chunk)).map (.processChunk i deferBy)).frames <
      (room env s).body pc := by
  rw [total_frames]
  cases pc with
  | reading =>
    obtain ⟨items, hread, h⟩ := Option.bind_eq_some_iff.mp h
    cases h
    have hlength := length_items_le hread
    have hopen (α : Type) : (List.replicate items.length (none : Option α)).countP (·.isNone) =
        items.length := by simp [List.countP_replicate]
    simp [Effect.goto, Effect.map, cost, body, room, hopen]
    omega
  | gathering items seen outcomes =>
    obtain ⟨results, -, h⟩ := Option.bind_eq_some_iff.mp h
    cases h
    simp only [ProcessChunk.afterGather]
    split <;> simp [Effect.goto, Effect.map, cost, body] <;> omega
  | cancelling | written =>
    obtain rfl := Option.some.inj h
    split <;> simp [Effect.goto, Effect.done, Effect.map, cost, body]
  | cancelLoaded | writing | loaded | flushed | recomputed =>
    cases h
    simp [Effect.goto, Effect.map, cost, body]
  | succeeded =>
    cases h
    simp [Effect.map, body, Room.job]

open Room in
theorem total_handler_lt {r : Room} {i deferBy : Nat} {chunk : BatchChunk} {exc : String}
    (pc : ProcessChunk.Handler) :
    r.total (((pc.step env s i exc).map (.handler chunk exc)).map
      (.processChunk i deferBy)).frames < r.handler pc := by
  rw [total_frames]
  cases pc with
  | failing =>
    simp only [ProcessChunk.Handler.step]
    split <;> simp [Effect.goto, Effect.done, Effect.map, cost, handler]
  | loadedBatch row batch =>
    simp only [ProcessChunk.Handler.step]
    split_ifs <;> simp [Effect.done, Effect.map, cost, handler]
  | loadedChunk | announceFailed | reEnqueue =>
    simp [ProcessChunk.Handler.step, Effect.goto, Effect.map, cost, handler, Room.job]

open Room in
theorem total_check_lt {deferBy : Nat} {pc : CheckCompletion.Pc}
    (h : (Frame.checkBatchCompletion deferBy pc).admitted = false) :
    (room env s).total ((CheckCompletion.step s pc).map (.checkBatchCompletion deferBy)).frames <
      (room env s).check pc := by
  rw [total_frames]
  cases pc with
  | gotBatch | reclaimed | counted => cases h
  | selectPending =>
    have : (s.db.chunks.filter (CheckCompletion.lost s.now)).length ≤ s.db.chunks.length :=
      List.length_filter_le _ _
    simp [CheckCompletion.step, Effect.goto, Effect.map, cost, check, room]
    omega
  | requeueing unleased todo =>
    cases todo with
    | nil => simp [CheckCompletion.step, Effect.map, cost, check]
    | cons c todo =>
      simp [CheckCompletion.step, Effect.map, cost, check, Room.job]
      omega
  | announceFailed | enqueueFinalize | repoll =>
    simp [CheckCompletion.step, Effect.map, check, Room.job]

open Room in
theorem total_finalize_lt {pc : Finalize.Pc} {e : Effect Finalize.Pc}
    (h : Finalize.step env s pc = some e) :
    (room env s).total (e.map .finalizeBatch).frames < (room env s).finalizing pc := by
  rw [total_frames]
  cases pc with
  | gotBatch loaded unfinished =>
    have : (s.db.chunks.filterMap (·.resultKey)).length ≤ s.db.chunks.length :=
      List.length_filterMap_le _ _
    simp only [Finalize.step] at h
    split at h <;> cases h
    · simp [Effect.goto, Effect.map, cost, finalizing]
    · simp [Effect.goto, Effect.map, cost, finalizing, room]
      omega
  | gathering snap keys parts =>
    cases keys with
    | nil => cases h; simp [Effect.map, cost, finalizing]
    | cons key keys =>
      obtain ⟨part, -, h⟩ := Option.bind_eq_some_iff.mp h
      cases h
      simp [Effect.goto, Effect.map, cost, finalizing]
  | incomplete | concatenated | committing | announce =>
    cases h
    simp [Effect.map, cost, finalizing, Room.job]

/-- Each item looks once. -/
theorem total_look_lt {r : Room} {i deferBy item : Nat} {pc : ProcessChunk.Pc}
    {e : Effect ProcessChunk.Pc} (h : ProcessChunk.look s item pc = some e) :
    r.total (e.map (.processChunk i deferBy)).frames < r.cost (.processChunk i deferBy pc) := by
  obtain ⟨chunk, items, seen, outcomes, rfl, hunseen, rfl⟩ := ProcessChunk.look_cases h
  have hcount := countP_set_lt s.db.batch.status hunseen
  rw [Room.total_frames]
  simp [Effect.goto, Effect.map, Room.cost, Room.body]
  omega

/-- A reply ends an item that was open. -/
theorem total_reply_lt {r : Room} {i deferBy item : Nat} {pc : ProcessChunk.Pc}
    {replies : List InferenceResult} {e : Effect ProcessChunk.Pc}
    (h : ProcessChunk.reply env item replies pc = some e) :
    r.total (e.map (.processChunk i deferBy)).frames < r.cost (.processChunk i deferBy pc) := by
  cases pc with
  | body chunk pc =>
    obtain ⟨e₁, h₁, rfl⟩ := Option.map_eq_some_iff.mp h
    cases pc with
    | gathering items seen outcomes =>
      simp only [ProcessChunk.Body.reply] at h₁
      split at h₁
      · rename_i value status hvalue hseen hopen
        obtain ⟨outcome, -, h₂⟩ := Option.bind_eq_some_iff.mp h₁
        cases h₂
        have hcount := countP_set_lt outcome hopen
        rw [Room.total_frames]
        simp [Effect.goto, Effect.map, Room.cost, Room.body]
        omega
      · cases h₁
    | _ => cases h₁
  | _ => cases h

theorem total_frames_lt (ht : s.db.batch.status.terminal = true)
    (hadmitted : frame.admitted = false) (hc : c.restarts = false)
    (hposted : ∀ event deferBy loaded ok, c = .next →
      frame ≠ .deliverBatchWebhook event deferBy (.posted loaded ok))
    (h : frame.step env s c = some e) :
    (room env s).total e.frames < (room env s).cost frame := by
  cases c with
  | next =>
    cases frame with
    | queued job => cases h; exact total_start_lt ht job
    | orchestrateBatch pc =>
      cases h
      cases pc with
      | enqueueing chunkIds => exact total_orchestrate_lt chunkIds
      | _ => cases hadmitted
    | processChunk i deferBy pc =>
      obtain ⟨e₁, h₁, rfl⟩ := Option.map_eq_some_iff.mp h
      cases pc with
      | body chunk pc =>
        obtain ⟨e₂, h₂, rfl⟩ := Option.map_eq_some_iff.mp h₁
        exact total_body_lt h₂
      | handler chunk exc pc => cases h₁; exact total_handler_lt pc
      | gotBatch | leased => cases hadmitted
    | checkBatchCompletion deferBy pc => cases h; exact total_check_lt hadmitted
    | finalizeBatch pc =>
      obtain ⟨e₁, h₁, rfl⟩ := Option.map_eq_some_iff.mp h
      exact total_finalize_lt h₁
    | deliverBatchWebhook event deferBy pc =>
      cases pc with
      | posted => exact absurd rfl (hposted _ _ _ _ rfl)
      | posting | backingOff => cases h
    | cancelBatch => cases h; simp [Room.total_frames, Room.cost]
  | look item =>
    cases frame with
    | processChunk i deferBy pc =>
      obtain ⟨e₁, h₁, rfl⟩ := Option.map_eq_some_iff.mp h
      exact total_look_lt h₁
    | _ => cases h
  | reply item replies =>
    cases frame with
    | processChunk i deferBy pc =>
      obtain ⟨e₁, h₁, rfl⟩ := Option.map_eq_some_iff.mp h
      exact total_reply_lt h₁
    | _ => cases h
  | posted ok =>
    cases turns_of_step h
    simp [Room.total_frames, Effect.goto, Room.cost, Room.delivering]
  | backoff delay =>
    cases turns_of_step h
    simp [Room.total_frames, Room.cost, Room.delivering, Room.job, Room.delivery]
  | raise exc =>
    cases h
    rw [Room.total_frames]
    simp only [Frame.raised]
    split
    · exact Room.failing_lt_body _ _
    · exact Room.cost_pos hadmitted
  | crash => cases hc
  | timeout => cases h; exact Room.cost_pos hadmitted

/-- A failed attempt is counted before the delivery is enqueued again. -/
theorem total_posted_lt {event : Event} {deferBy : Nat} {ok : Bool}
    (h : Frame.next env s (.deliverBatchWebhook event deferBy (.posted s.db.batch ok)) = some e) :
    (room env (e.shared s)).total e.frames <
      (room env s).cost (.deliverBatchWebhook event deferBy (.posted s.db.batch ok)) := by
  cases h
  rw [Room.total_frames]
  split
  · simp [Effect.map, Room.cost, Room.delivering]
  · rename_i hleft
    simp only [Bool.or_eq_true, not_or, DeliverWebhook.exhausted, decide_eq_true_eq] at hleft
    simp [Effect.map, Effect.shared, Room.cost, Room.delivering, room]
    omega

/-! ## Every run -/

theorem Transaction.inserted_of_terminal {db : Db} {commit : Commit}
    (h : Transaction env now db commit) (ht : db.batch.status.terminal = true) :
    commit.inserted = [] := by
  cases h with
  | orchestrate active => simp [ht] at active
  | _ => rfl

theorem webhookAttempts_le {commit : Commit} (h : Commits env s frame commit)
    (hs : frame.Snapshot env s.db s.now) :
    s.db.batch.webhookAttempts ≤ (commit.onBatch s.db.batch).webhookAttempts := by
  rcases h.webhook_cases with ⟨-, -, hsame⟩ | ⟨event, deferBy, loaded, ok, rfl, rfl⟩
  · exact (hsame _).ge
  · obtain rfl : loaded = s.db.batch := hs
    simp

/-- The room does not grow once the batch has ended. -/
theorem room_shrinks (hok : frame.Ok env s) (hs : frame.Snapshot env s.db s.now)
    (ht : s.db.batch.status.terminal = true) (h : frame.step env s c = some e) :
    (room env (e.shared s)).chunks = (room env s).chunks ∧
      (room env (e.shared s)).attempts ≤ (room env s).attempts ∧
      (e.shared s).db.batch.status.terminal = true := by
  rcases db_cases h with hdb | ⟨commit, hc, hdb⟩
  · simp only [room, hdb]
    exact ⟨trivial, le_rfl, ht⟩
  · have htrans := hc.transaction hok hs
    have hattempts := webhookAttempts_le hc hs
    simp only [room, hdb, Commit.apply, htrans.inserted_of_terminal ht, List.append_nil,
      List.length_mapIdx]
    exact ⟨trivial, by omega, htrans.terminal ht⟩

theorem total_lt (hs : frame.Snapshot env s.db s.now) (hok : frame.Ok env s)
    (ht : s.db.batch.status.terminal = true) (hc : c.restarts = false)
    (h : frame.step env s c = some e) :
    (room env (e.shared s)).total e.frames < (room env s).cost frame := by
  by_cases hposted : c = .next ∧
      ∃ event deferBy loaded ok, frame = .deliverBatchWebhook event deferBy (.posted loaded ok)
  · obtain ⟨rfl, event, deferBy, loaded, ok, rfl⟩ := hposted
    obtain rfl : loaded = s.db.batch := hs
    exact total_posted_lt h
  · push Not at hposted
    have hadmitted := not_admitted_of_terminal hs ht
    have hlt := total_frames_lt ht hadmitted hc (fun _ _ _ _ hnext => hposted hnext _ _ _ _) h
    obtain ⟨hchunks, hattempts, -⟩ := room_shrinks hok hs ht h
    refine lt_of_le_of_lt (List.sum_le_sum fun f _ => ?_) hlt
    exact Room.cost_mono hchunks rfl hattempts f

/-- What the jobs of a world may still cost. -/
def load (env : Env) (w : World Shared Frame) : Nat := (room env w.shared).total w.pool

/-- No job is enqueued from outside, and none is run again after a crash. -/
def Settles (_ : World Shared Frame) : Moves → Prop
  | .act _ c => c.restarts = false
  | .env (.arrive _) => False
  | .env (.tick _) => True

instance : DecidableRel Settles
  | _, .act _ c => inferInstanceAs (Decidable (c.restarts = false))
  | _, .env (.arrive _) => isFalse id
  | _, .env (.tick _) => isTrue trivial

/-- A job moves. -/
def acts : Moves → Bool
  | .act .. => true
  | .env _ => false

theorem load_of_fire (hw : (workers env).Reach Atomic (created env now) v)
    (ht : v.shared.db.batch.status.terminal = true) (hm : Settles v m)
    (hf : (workers env).fire v m = some v') :
    v'.shared.db.batch.status.terminal = true ∧ load env v' + (acts m).toNat ≤ load env v := by
  cases m with
  | act i c =>
    obtain ⟨frame, r, hk, hstep, rfl⟩ := fire_act_iff.mp hf
    obtain ⟨e, he, rfl⟩ := step_iff.mp hstep
    have hmem := List.mem_of_getElem? hk
    have hs := snapshot_of_reach hw frame hmem
    have hok := (ok_of_reach hw).2 frame hmem
    obtain ⟨hchunks, hattempts, hended⟩ := room_shrinks hok hs ht he
    have hlt := total_lt hs hok ht hm he
    have hothers : (room env (e.shared v.shared)).total (others v i) ≤
        (room env v.shared).total (others v i) :=
      List.sum_le_sum fun f _ => Room.cost_mono hchunks rfl hattempts f
    have hpool : load env v = (room env v.shared).cost frame +
        (room env v.shared).total (others v i) := by
      rw [load, Room.total, ((perm_others hk).map _).sum_eq, List.map_cons, List.sum_cons]
      rfl
    refine ⟨hended, ?_⟩
    rw [hpool, load, Room.total, List.map_append, List.sum_append]
    simp only [acts, Bool.toNat_true]
    simp only [Room.total] at hlt hothers ⊢
    omega
  | env e =>
    cases e with
    | arrive job => cases hm
    | tick seconds =>
      cases hf
      exact ⟨ht, by simp [load, room, acts]⟩

/-- A batch that has ended comes to rest: whatever its jobs do, and in whatever order, only so
many steps are left, unless other code enqueues a job or a worker dies. -/
theorem ended_batch_quiesces (h : (workers env).Reach Atomic (created env now) w)
    (ht : w.shared.db.batch.status.terminal = true) :
    ∃ bound, ∀ ms w', (workers env).run (fun v m => Atomic v m ∧ Settles v m) w ms = some w' →
      ms.countP acts ≤ bound ∧ w'.shared.db.batch.status.terminal = true := by
  have hstep : ∀ v m v', ((workers env).Reach Atomic (created env now) v ∧
      v.shared.db.batch.status.terminal = true) → Atomic v m ∧ Settles v m →
      (workers env).fire v m = some v' →
      ((workers env).Reach Atomic (created env now) v' ∧
        v'.shared.db.batch.status.terminal = true) ∧
      load env v' + (acts m).toNat ≤ load env v := by
    intro v m v' hv hm hf
    obtain ⟨hended, hle⟩ := load_of_fire hv.1 hv.2 hm.2 hf
    exact ⟨⟨.step hv.1 hm.1 hf, hended⟩, hle⟩
  refine ⟨load env w, fun ms w' hr => ?_⟩
  obtain ⟨⟨-, hended⟩, hle⟩ := countP_le_of_potential hstep ⟨h, ht⟩ hr
  exact ⟨by omega, hended⟩

theorem ended_batch_quiesces_cancelled : ∃ w,
    (workers (twoPrompts 1 5)).Reach Atomic (created (twoPrompts 1 5) 0) w ∧
    w.pool.length = 3 ∧ w.shared.db.batch.status = .cancelled ∧
    ∃ bound, ∀ ms w', (workers (twoPrompts 1 5)).run (fun v m => Atomic v m ∧ Settles v m) w ms =
      some w' → ms.countP acts ≤ bound ∧ w'.shared.db.batch.status.terminal = true := by
  have hrun : ((workers (twoPrompts 1 5)).run Atomic (created (twoPrompts 1 5) 0)
      cancelledWhileRunning).map (fun w => (w.pool.length, w.shared.db.batch.status)) =
      some (3, .cancelled) := by decide +kernel
  obtain ⟨w, hw, hend⟩ := Option.map_eq_some_iff.mp hrun
  obtain ⟨hpool, hstatus⟩ := Prod.mk.inj hend
  exact ⟨w, .of_run hw, hpool, hstatus, ended_batch_quiesces (.of_run hw) (by rw [hstatus]; rfl)⟩

end BatchInference
