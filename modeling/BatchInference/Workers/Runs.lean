import BatchInference.Library.JobPool
import BatchInference.Workers.Changes

/-!
# Runs

The jobs of one batch as a pool. A run whose transactions are atomic is a `Serial` run of the
same steps: no job starts a transaction while another one is inside its own.
-/

namespace BatchInference

open JobPool

/-- Other code may start any job at any time, and the clock does not go back. -/
inductive Outside where
  | arrive (job : Job)
  | tick (seconds : Nat)
  deriving DecidableEq, Repr

def workers (env : Env) : System Shared Frame Choice Outside where
  step c s frame := (frame.step env s c).map fun e => (e.shared s, e.frames)
  env
    | .arrive job, s => some (s, [.queued job])
    | .tick seconds, s => some ({ s with now := s.now + seconds }, [])

/-- `create_batch` has committed the row and its caller has enqueued the orchestration. -/
def created (env : Env) (now : Int) : World Shared Frame where
  shared :=
    { db :=
        { batch :=
            { webhookStatus := if env.spec.webhookUrl.all (· = "") then .none else .pending }
          chunks := [] }
      store := .empty
      now := now }
  pool := [.queued .orchestrateBatch]

abbrev Moves := Move Choice Outside

theorem step_iff {env : Env} {c : Choice} {s : Shared} {frame : Frame}
    {r : Shared × List Frame} : (workers env).step c s frame = some r ↔
      ∃ e, frame.step env s c = some e ∧ r = (e.shared s, e.frames) := by
  simp [workers, eq_comm (a := r)]

/-- `Modular` for the jobs of a batch, in terms of what their steps do. -/
theorem modular_of_steps {env : Env} {ok : World Shared Frame → Moves → Prop} {I : Shared → Prop}
    {J : Shared → Frame → Prop}
    (act : ∀ w i c frame e, I w.shared → (∀ f ∈ w.pool, J w.shared f) → ok w (.act i c) →
      w.pool[i]? = some frame → frame.step env w.shared c = some e →
      I (e.shared w.shared) ∧ ∀ f ∈ e.frames, J (e.shared w.shared) f)
    (stable : ∀ w i c frame e f, I w.shared → ok w (.act i c) → w.pool[i]? = some frame →
      J w.shared frame → frame.step env w.shared c = some e → f ∈ System.others w i →
      J w.shared f → J (e.shared w.shared) f)
    (arrive : ∀ w job, ok w (.env (.arrive job)) → J w.shared (.queued job))
    (tick : ∀ s (seconds : Nat), I s → I { s with now := s.now + seconds } ∧
      ∀ f, J s f → J { s with now := s.now + seconds } f) :
    (workers env).Modular ok I J where
  act hI hJ hm hk hs := by
    obtain ⟨e, he, hr⟩ := step_iff.mp hs
    cases hr
    exact act _ _ _ _ e hI hJ hm hk he
  stable hI hm hk hJ hs hother hf := by
    obtain ⟨e, he, hr⟩ := step_iff.mp hs
    cases hr
    exact stable _ _ _ _ e _ hI hm hk hJ he hother hf
  env {w e s ks} hI hm henv := by
    cases e with
    | arrive job =>
      cases henv
      exact ⟨hI, List.forall_mem_singleton.mpr (arrive w job hm), fun _ hf => hf⟩
    | tick seconds =>
      cases henv
      obtain ⟨hIs, hJs⟩ := tick w.shared seconds hI
      exact ⟨hIs, List.forall_mem_nil _, hJs⟩

/-! ## Moves and what they write -/

/-- The transaction that a move commits. -/
def commitOf (env : Env) (w : World Shared Frame) : Moves → Option Commit
  | .act i c => w.pool[i]?.bind fun frame => (frame.step env w.shared c).bind (·.commit)
  | .env _ => none

/-- The object that a move puts. -/
def putOf (env : Env) (w : World Shared Frame) : Moves → Option Put
  | .act i c => w.pool[i]?.bind fun frame => (frame.step env w.shared c).bind (·.put)
  | .env _ => none

section Moves

variable {env : Env} {w w' : World Shared Frame} {m : Moves}

theorem commits_of_commitOf {commit : Commit} (h : commitOf env w m = some commit) :
    ∃ frame ∈ w.pool, Commits env w.shared frame commit := by
  cases m with
  | act i c =>
    obtain ⟨frame, hk, h⟩ := Option.bind_eq_some_iff.mp h
    obtain ⟨e, he, hc⟩ := Option.bind_eq_some_iff.mp h
    exact ⟨frame, List.mem_of_getElem? hk, commits_of_step he hc⟩
  | env e => cases h

theorem db_of_fire (h : (workers env).fire w m = some w') :
    w'.shared.db = (commitOf env w m).elim w.shared.db (·.apply w.shared.db) := by
  cases m with
  | act i c =>
    obtain ⟨frame, r, hk, hs, rfl⟩ := System.fire_act_iff.mp h
    obtain ⟨e, he, rfl⟩ := step_iff.mp hs
    simp [commitOf, hk, he, Effect.shared]
  | env e =>
    obtain ⟨r, hr, rfl⟩ := System.fire_env_iff.mp h
    cases e <;> cases hr <;> rfl

/-- A move is another code's, which only adds jobs or lets time pass, or a job's step. -/
theorem fire_cases (h : (workers env).fire w m = some w') :
    (∃ jobs : List Job, (commitOf env w m = none ∧ putOf env w m = none) ∧
      w'.shared.db = w.shared.db ∧ w'.shared.store = w.shared.store ∧
      w.shared.now ≤ w'.shared.now ∧ w'.pool = w.pool ++ jobs.map .queued) ∨
    ∃ k c frame e, m = .act k c ∧ w.pool[k]? = some frame ∧
      frame.step env w.shared c = some e ∧
      (commitOf env w m = e.commit ∧ putOf env w m = e.put) ∧
      w'.shared = e.shared w.shared ∧ w'.pool = System.others w k ++ e.frames := by
  cases m with
  | act k c =>
    obtain ⟨frame, r, hk, hs, rfl⟩ := System.fire_act_iff.mp h
    obtain ⟨e, he, rfl⟩ := step_iff.mp hs
    exact .inr ⟨k, c, frame, e, rfl, hk, he, by simp [commitOf, putOf, hk, he], rfl, rfl⟩
  | env e =>
    obtain ⟨r, hr, rfl⟩ := System.fire_env_iff.mp h
    cases e with
    | arrive job => cases hr; exact .inl ⟨[job], ⟨rfl, rfl⟩, rfl, rfl, le_rfl, rfl⟩
    | tick seconds =>
      cases hr
      exact .inl ⟨[], ⟨rfl, rfl⟩, rfl, rfl, Int.le_add_of_nonneg_right (by positivity),
        rfl⟩

theorem forall_pool_of_queued {P : Frame → Prop} {jobs : List Job}
    (hpool : w'.pool = w.pool ++ jobs.map .queued) (h : ∀ f ∈ w.pool, P f)
    (hqueued : ∀ job, P (.queued job)) : ∀ f ∈ w'.pool, P f := by
  rw [hpool]
  exact List.forall_mem_append.mpr ⟨h, List.forall_mem_map.mpr fun job _ => hqueued job⟩

end Moves

/-! ## Atomic transactions -/

namespace Frame

/-- The job has run a statement of a transaction that it has not ended. -/
def busy : Frame → Bool
  | .orchestrateBatch (.enqueueing _) => false
  | .orchestrateBatch _ => true
  | .processChunk _ _ pc => match pc with
    | .gotBatch | .leased .. => true
    | .body _ pc => match pc with
      | .cancelLoaded _ | .loaded .. | .flushed .. | .recomputed .. => true
      | _ => false
    | .handler _ _ pc => match pc with
      | .loadedChunk _ | .loadedBatch .. => true
      | _ => false
  | .checkBatchCompletion _ pc => match pc with
    | .gotBatch _ | .reclaimed .. | .counted .. | .requeueing .. => true
    | _ => false
  | .finalizeBatch pc => match pc with
    | .gotBatch .. | .gathering .. | .concatenated _ | .committing _ => true
    | _ => false
  | .deliverBatchWebhook _ _ pc => match pc with
    | .posting _ | .posted .. => true
    | .backingOff _ => false
  | .cancelBatch _ => true
  | .queued _ => false

/-- The job's next step is the first statement of a transaction. -/
def begins : Frame → Bool
  | .queued _ => true
  | .processChunk _ _ (.body _ pc) => match pc with
    | .gathering .. | .cancelling | .written .. => true
    | _ => false
  | .processChunk _ _ (.handler _ _ .failing) => true
  | .checkBatchCompletion _ .selectPending => true
  | _ => false

def touches (frame : Frame) : Bool := frame.busy || frame.begins

end Frame

/-- Transactions are atomic. -/
abbrev Atomic : World Shared Frame → Moves → Prop := System.Serial Frame.busy Frame.touches

/-! ## A batch of two prompts -/

/-- Two empty JSON objects, each on its line. -/
def twoPrompts (chunkSize chunkMaxAttempts : Int) : Env where
  spec :=
    { id := "01", totalItems := 2, chunkSize := chunkSize, webhookUrl := none
      prompts := [123, 125, lf, 123, 125, lf]
      one_le_totalItems := by decide
      totalItems_lt := by decide
      lines_prompts := by decide }
  chunkLeaseSeconds := 300
  chunkMaxAttempts := chunkMaxAttempts
  webhookMaxAttempts := 10
  reads content := [content]
  loads _ := some (.obj [])
  intOfStr _ := none
  flatten_reads := by simp

/-- The provider answers, or refuses for good. -/
def answer (ok : Bool) : List InferenceResult :=
  [if ok then { ok, output := .str "hello" }
    else { ok, error := some "refused", errorKind := some .terminal }]

/-- The job at position `i` moves, and so do those that come to stand there. -/
def steps (i n : Nat) : List Moves := List.replicate n (.act i .next)

/-- The job at position `i`, the last one, has an item answered. -/
def replied (i item : Nat) (ok : Bool) : List Moves :=
  [.act i (.look item), .act i (.reply item (answer ok))]

/-- A chunk for each prompt, both under way at once; one item is refused. -/
def completedRun : List Moves :=
  steps 0 6 ++ steps 1 1 ++ steps 0 1 ++ steps 2 3 ++ replied 2 0 true ++
    steps 2 2 ++ steps 0 1 ++ steps 2 3 ++ replied 2 0 false ++ steps 2 7 ++
    steps 1 1 ++ steps 2 4 ++ steps 0 1 ++ steps 2 12

end BatchInference
