import BatchInference.Library.JobPool
import BatchInference.RateLimit.Bucket
import BatchInference.Workers.RunOne

/-!
# The calls of the provider

Items of any batches share a bucket. `run_one` acquires once and calls the provider up to
three times; in between it pauses the bucket if the answer says so, and sleeps for a random
time. Each statement that awaits something is a step of its own: acquire reads the clock
before its script runs, and a pause may be written while a granted item is about to call.
-/

namespace BatchInference.ProviderCalls

open JobPool System

/-- What all items on the bucket share. -/
structure Shared where
  key : Key
  now : ℚ

/-- Where an item stands: before the statement of that name, or inside the call. -/
inductive Stage where
  | acquire
  | reading (deadline : ℚ)
  | script (deadline now : ℚ)
  | waiting (deadline wake : ℚ)
  | infer (attempt : ℕ)
  | awaiting (attempt : ℕ)
  | pause (attempt : ℕ) (seconds : ℚ)
  | pausing (attempt : ℕ) (untilTs : ℚ)
  | backoff (attempt : ℕ)
  | sleeping (attempt : ℕ) (wake : ℚ)
  deriving DecidableEq, Repr

/-- What the code does not decide: the provider's answer with its `Retry-After`, the jitter,
a call that raises, a batch that is cancelled before the item starts, a worker that dies. -/
inductive Choice where
  | next
  | reply (result : InferenceResult) (retryAfter : Option String)
  | jitter (seconds : ℚ)
  | raise
  | cancelled
  | lost

structure Item where
  rate : ℚ
  stage : Stage := .acquire
  /-- Bookkeeping: the granted acquires of this item that none of its calls has used. -/
  unused : ℕ := 0
  deriving DecidableEq, Repr

/-- What a statement does: the stage it ends in (none where `run_one` returns or raises), the
key it writes, and whether it was granted a token. -/
structure Turn where
  next : Option Stage
  key : Option Key := none
  granted : Bool := false

/-- The default `max_wait` of `acquire`. -/
def maxWait : ℚ := 120

/-- The loop of `acquire` after a refusal. -/
def afterRefusal (deadline now : ℚ) (waitMs : ℤ) : Option Stage :=
  let waitS := max ((waitMs : ℚ) / 1000) (1 / 100)
  if now + waitS > deadline then none else some (.waiting deadline (now + min waitS 1))

def retryable (result : InferenceResult) : Bool :=
  !result.ok && result.errorKind == some .retryable

/-- The loop over `attempt` after an answer. A `retry_after` that `float` refuses is passed
over. -/
def afterInfer (floatOfStr : String → Option ℚ) (attempt : ℕ) (result : InferenceResult)
    (retryAfter : Option String) : Option Stage :=
  if retryable result then
    match (retryAfter.filter (· ≠ "")).bind floatOfStr with
    | some seconds => some (.pause attempt seconds)
    | none => some (.backoff attempt)
  else none

/-- `exponential_backoff_seconds` draws from 0 to this. -/
def backoffSeconds (attempt : ℕ) : ℚ := min 8 (1 * 2 ^ attempt)

def Stage.turn (floatOfStr : String → Option ℚ) (rate : ℚ) (s : Shared) :
    Choice → Stage → Option Turn
  | .lost, _ => some { next := none }
  | .cancelled, .acquire => some { next := none }
  | .next, .acquire =>
    some { next := some (if rate ≤ 0 then .infer 0 else .reading (s.now + maxWait)) }
  | .next, .reading deadline => some { next := some (.script deadline s.now) }
  | .next, .script deadline now =>
    let (written, reply) := tokenBucketLua rate rate 1 now s.key.hash
    some
      { next := if reply.granted then some (.infer 0)
          else afterRefusal deadline s.now reply.waitMs
        key := written.map fun hash => { hash, written := s.now }
        granted := reply.granted }
  | .raise, .script .. => some { next := none }
  | .next, .waiting deadline wake =>
    if wake ≤ s.now then some { next := some (.reading deadline) } else none
  | .next, .infer attempt => some { next := some (.awaiting attempt) }
  | .reply result retryAfter, .awaiting attempt =>
    some { next := afterInfer floatOfStr attempt result retryAfter }
  | .raise, .awaiting _ => some { next := none }
  | .next, .pause attempt seconds =>
    some { next := some (.pausing attempt (s.now + max seconds 0)) }
  | .next, .pausing attempt untilTs =>
    some
      { next := some (.backoff attempt)
        key := some { hash := pauseLua untilTs s.key.hash, written := s.now } }
  | .raise, .pausing attempt _ => some { next := some (.backoff attempt) }
  | .jitter seconds, .backoff attempt =>
    if 0 ≤ seconds ∧ seconds ≤ backoffSeconds attempt then
      some { next := some (.sleeping attempt (s.now + seconds)) }
    else none
  | .next, .sleeping attempt wake =>
    if wake ≤ s.now then
      some { next := if attempt + 1 < 3 then some (.infer (attempt + 1)) else none }
    else none
  | _, _ => none

def Stage.calls : Stage → Bool
  | .infer _ => true
  | _ => false

def Item.step (floatOfStr : String → Option ℚ) (c : Choice) (s : Shared) (item : Item) :
    Option (Shared × List Item) :=
  (item.stage.turn floatOfStr item.rate s c).map fun turn =>
    let spent := if item.stage.calls then item.unused - 1 else item.unused
    let unused := if turn.granted then spent + 1 else spent
    ({ s with key := turn.key.getD s.key },
      turn.next.toList.map fun stage => { item with stage, unused })

/-- Time goes by, an item arrives, Redis drops a key that has outlived its time. -/
inductive Outside where
  | tick (seconds : ℚ)
  | arrive (rate : ℚ)
  | expire

def Outside.step : Outside → Shared → Option (Shared × List Item)
  | tick seconds, s => if 0 ≤ seconds then some ({ s with now := s.now + seconds }, []) else none
  | arrive rate, s => some (s, [{ rate }])
  | expire, s => some ({ s with key := (s.key.step (.expire s.now)).1 }, [])

/-- `float` of a header is a parameter. -/
def items (floatOfStr : String → Option ℚ) : System Shared Item Choice Outside where
  step := Item.step floatOfStr
  env := Outside.step

abbrev Moves := Move Choice Outside

/-- The bucket as it is found, and no item yet. -/
def opened (key : Key) (now : ℚ) : World Shared Item := ⟨⟨key, now⟩, []⟩

/-! ## The calls and the condition -/

def Choice.calls : Choice → Stage → Bool
  | .next, stage => stage.calls
  | _, _ => false

/-- The move is a call of the provider. -/
def calls (w : World Shared Item) : Moves → Bool
  | .act i c => w.pool[i]?.any fun item => c.calls item.stage
  | .env _ => false

/-- The move executes the script of an acquire, and it is granted. -/
def grants (floatOfStr : String → Option ℚ) (w : World Shared Item) : Moves → Bool
  | .act i c => w.pool[i]?.any fun item =>
    (item.stage.turn floatOfStr item.rate w.shared c).any (·.granted)
  | .env _ => false

/-- The grants that wait for their calls. -/
def held (w : World Shared Item) : ℕ := (w.pool.map (·.unused)).sum

/-- A call that is made has a grant of its own, and no pause that has been written is in
force. -/
def CallPaid (w : World Shared Item) : Moves → Prop
  | .act i c => ∀ item ∈ w.pool[i]?, c.calls item.stage →
      0 < item.unused ∧ ∀ until_ts ∈ w.shared.key.hash.pauseUntil, until_ts ≤ w.shared.now
  | .env _ => True

/-- The item does not pass the bucket by, and no try but the last is answered with a
retryable error. -/
def Item.Plain (c : Choice) (item : Item) : Prop :=
  match c, item.stage with
  | .next, .acquire => 0 < item.rate
  | .reply result _, .awaiting attempt => attempt + 1 < 3 → retryable result = false
  | _, _ => True

def Plain (w : World Shared Item) : Moves → Prop
  | .act i c => ∀ item ∈ w.pool[i]?, item.Plain c
  | .env _ => True

variable {floatOfStr : String → Option ℚ} {s s' : Shared} {item : Item} {ks : List Item}
  {c : Choice} {turn : Turn}

theorem Item.step_iff : item.step floatOfStr c s = some (s', ks) ↔
    ∃ turn, item.stage.turn floatOfStr item.rate s c = some turn ∧
      s' = { s with key := turn.key.getD s.key } ∧
      ks = turn.next.toList.map fun stage =>
        { item with
          stage
          unused := (if item.stage.calls then item.unused - 1 else item.unused) +
            if turn.granted then 1 else 0 } := by
  rw [Item.step, Option.map_eq_some_iff]
  refine exists_congr fun turn => and_congr_right fun _ => ?_
  rw [Prod.mk.injEq, eq_comm, eq_comm (a := ks)]
  split_ifs <;> rfl

/-! ## How an item goes on -/

/-- The bucket's pause is as it was. -/
def SamePause (s : Shared) (key : Option Key) : Prop :=
  (key.getD s.key).hash.pauseUntil = s.key.hash.pauseUntil

inductive Goes (s : Shared) (rate : ℚ) : Choice → Stage → Turn → Prop where
  | lost {stage : Stage} : Goes s rate .lost stage { next := none }
  | cancelled : Goes s rate .cancelled .acquire { next := none }
  | unlimited (h : rate ≤ 0) : Goes s rate .next .acquire { next := some (.infer 0) }
  | enter {deadline : ℚ} (h : 0 < rate) :
      Goes s rate .next .acquire { next := some (.reading deadline) }
  | read {deadline : ℚ} :
      Goes s rate .next (.reading deadline) { next := some (.script deadline s.now) }
  | granted {deadline now : ℚ} {key : Option Key} (hkey : SamePause s key)
      (h : ∀ until_ts ∈ s.key.hash.pauseUntil, until_ts ≤ now) :
      Goes s rate .next (.script deadline now)
        { next := some (.infer 0), key, granted := true }
  | refused {deadline now : ℚ} {key : Option Key} {waitMs : ℤ} (hkey : SamePause s key) :
      Goes s rate .next (.script deadline now)
        { next := afterRefusal deadline s.now waitMs, key }
  | scriptRaises {deadline now : ℚ} :
      Goes s rate .raise (.script deadline now) { next := none }
  | wake {deadline wake : ℚ} :
      Goes s rate .next (.waiting deadline wake) { next := some (.reading deadline) }
  | call {attempt : ℕ} : Goes s rate .next (.infer attempt) { next := some (.awaiting attempt) }
  | answered {attempt : ℕ} {result : InferenceResult} {retryAfter : Option String}
      (h : retryable result = false) :
      Goes s rate (.reply result retryAfter) (.awaiting attempt) { next := none }
  | pause {attempt : ℕ} {result : InferenceResult} {retryAfter : Option String} {seconds : ℚ}
      (h : retryable result = true) :
      Goes s rate (.reply result retryAfter) (.awaiting attempt)
        { next := some (.pause attempt seconds) }
  | noPause {attempt : ℕ} {result : InferenceResult} {retryAfter : Option String}
      (h : retryable result = true) :
      Goes s rate (.reply result retryAfter) (.awaiting attempt)
        { next := some (.backoff attempt) }
  | inferRaises {attempt : ℕ} : Goes s rate .raise (.awaiting attempt) { next := none }
  | pauseUntil {attempt : ℕ} {seconds untilTs : ℚ} :
      Goes s rate .next (.pause attempt seconds) { next := some (.pausing attempt untilTs) }
  | paused {attempt : ℕ} {untilTs : ℚ} {key : Key} :
      Goes s rate .next (.pausing attempt untilTs) { next := some (.backoff attempt), key }
  | pauseRaises {attempt : ℕ} {untilTs : ℚ} :
      Goes s rate .raise (.pausing attempt untilTs) { next := some (.backoff attempt) }
  | sleep {attempt : ℕ} {seconds wake : ℚ} :
      Goes s rate (.jitter seconds) (.backoff attempt) { next := some (.sleeping attempt wake) }
  | again {attempt : ℕ} {wake : ℚ} (h : attempt + 1 < 3) :
      Goes s rate .next (.sleeping attempt wake) { next := some (.infer (attempt + 1)) }
  | spent {attempt : ℕ} {wake : ℚ} (h : ¬ attempt + 1 < 3) :
      Goes s rate .next (.sleeping attempt wake) { next := none }

/-- The script leaves the pause, and grants nothing during one. -/
theorem script_cases (rate now : ℚ) (s : Shared) :
    SamePause s ((tokenBucketLua rate rate 1 now s.key.hash).1.map
        fun hash => { hash, written := s.now }) ∧
      ((tokenBucketLua rate rate 1 now s.key.hash).2.granted = true →
        ∀ until_ts ∈ s.key.hash.pauseUntil, until_ts ≤ now) := by
  rw [tokenBucketLua_eq]
  simp only
  split_ifs with hpaused htokens
  · exact ⟨rfl, fun h => nomatch h⟩
  · exact ⟨rfl, fun h => nomatch h⟩
  · refine ⟨rfl, fun _ until_ts hmem => ?_⟩
    rw [Hash.paused, hmem] at hpaused
    exact not_lt.mp hpaused

theorem goes_of_turn {stage : Stage} {rate : ℚ} (h : stage.turn floatOfStr rate s c = some turn) :
    Goes s rate c stage turn := by
  unfold Stage.turn at h
  split at h
  case h_3 =>
    cases h
    split_ifs with hrate
    · exact .unlimited hrate
    · exact .enter (not_le.mp hrate)
  case h_5 deadline now =>
    obtain ⟨hkey, hgranted⟩ := script_cases rate now s
    generalize tokenBucketLua rate rate 1 now s.key.hash = result at h hkey hgranted
    obtain ⟨written, granted, waitMs⟩ := result
    cases granted with
    | true =>
      cases h
      exact .granted hkey (hgranted rfl)
    | false =>
      cases h
      exact .refused hkey
  case h_9 attempt result retryAfter =>
    cases h
    unfold afterInfer
    split_ifs with hretry
    · split
      · exact .pause hretry
      · exact .noPause hretry
    · exact .answered (by simpa using hretry)
  case h_7 =>
    split at h <;> cases h
    exact .wake
  case h_14 =>
    split at h <;> cases h
    exact .sleep
  case h_15 =>
    split at h <;> cases h
    split_ifs with hattempt
    · exact .again hattempt
    · exact .spent hattempt
  all_goals first | (cases h; constructor) | cases h

/-! ## Without retries -/

/-- What an item has and knows in a plain run. -/
def Item.Fine (s : Shared) (item : Item) : Prop :=
  match item.stage with
  | .acquire | .reading _ | .waiting .. => True
  | .script _ now => now ≤ s.now
  | .infer attempt => attempt = 0 ∧ 0 < item.unused ∧
      ∀ until_ts ∈ s.key.hash.pauseUntil, until_ts ≤ s.now
  | .awaiting attempt => attempt = 0
  | .pause .. | .pausing .. | .backoff _ | .sleeping .. => False

theorem Item.Fine.mono (h : item.Fine s)
    (hpause : ∀ until_ts ∈ s'.key.hash.pauseUntil, until_ts ∈ s.key.hash.pauseUntil)
    (hnow : s.now ≤ s'.now) : item.Fine s' := by
  obtain ⟨rate, stage, unused⟩ := item
  cases stage with
  | script deadline now => exact h.trans hnow
  | infer attempt =>
    obtain ⟨hfirst, hpaid, hover⟩ := h
    exact ⟨hfirst, hpaid, fun until_ts hmem => (hover until_ts (hpause until_ts hmem)).trans hnow⟩
  | _ => exact h

/-- A plain step leaves the pause, and ends where the item is fine. -/
theorem Goes.fine {rate : ℚ} {stage : Stage} {unused : ℕ} (h : Goes s rate c stage turn)
    (hfine : Item.Fine s ⟨rate, stage, unused⟩) (hplain : Item.Plain c ⟨rate, stage, unused⟩) :
    SamePause s turn.key ∧ ∀ next ∈ turn.next, ∀ left : ℕ, (turn.granted = true → 0 < left) →
      Item.Fine { s with key := turn.key.getD s.key } ⟨rate, next, left⟩ := by
  cases h with
  | unlimited hrate => exact absurd hplain hrate.not_gt
  | granted hkey hover =>
    refine ⟨hkey, ?_⟩
    rintro _ ⟨⟩ left hleft
    refine ⟨rfl, hleft rfl, fun until_ts hmem => ?_⟩
    exact (hover until_ts (hkey ▸ hmem)).trans hfine
  | refused hkey =>
    refine ⟨hkey, fun next hnext left _ => ?_⟩
    simp only [afterRefusal] at hnext
    split_ifs at hnext <;> cases hnext
    trivial
  | read =>
    refine ⟨rfl, ?_⟩
    rintro _ ⟨⟩ left -
    exact le_rfl
  | call =>
    refine ⟨rfl, ?_⟩
    rintro _ ⟨⟩ left -
    exact hfine.1
  | pause hretry | noPause hretry =>
    rw [Item.Fine] at hfine
    subst hfine
    exact absurd (hplain (by omega)) (by simp [hretry])
  | pauseUntil | paused | pauseRaises | sleep | again | spent => exact hfine.elim
  | enter | wake =>
    refine ⟨rfl, ?_⟩
    rintro _ ⟨⟩ left -
    trivial
  | lost | cancelled | scriptRaises | answered | inferRaises =>
    exact ⟨rfl, fun _ hnext => nomatch hnext⟩

variable {w w' : World Shared Item} {ms : List Moves} {key : Key} {now : ℚ}

theorem modular_fine : (items floatOfStr).Modular Plain (fun _ => True) Item.Fine := by
  refine ⟨?_, ?_, ?_⟩
  · intro w i c item s' ks _ hJ hplain hk hstep
    obtain ⟨turn, hturn, rfl, rfl⟩ := Item.step_iff.mp hstep
    obtain ⟨-, hnext⟩ :=
      (goes_of_turn hturn).fine (hJ item (List.mem_of_getElem? hk)) (hplain item hk)
    refine ⟨trivial, List.forall_mem_map.mpr fun next hmem => ?_⟩
    exact hnext next (Option.mem_toList.mp hmem) _ fun hgranted => by simp [hgranted]
  · intro w i c item s' ks j _ hplain hk hfine hstep _ hj
    obtain ⟨turn, hturn, rfl, -⟩ := Item.step_iff.mp hstep
    obtain ⟨hpause, -⟩ := (goes_of_turn hturn).fine hfine (hplain item hk)
    exact hj.mono (fun until_ts hmem => hpause ▸ hmem) le_rfl
  · intro w e s' ks _ _ henv
    cases e with
    | tick seconds =>
      simp only [items, Outside.step] at henv
      split_ifs at henv with hseconds
      cases henv
      exact ⟨trivial, by simp, fun j hj => hj.mono (fun _ => id) (by simpa using hseconds)⟩
    | arrive rate =>
      cases henv
      exact ⟨trivial, by simp [Item.Fine], fun _ hj => hj⟩
    | expire =>
      cases henv
      refine ⟨trivial, by simp, fun j hj => hj.mono (fun until_ts hmem => ?_) le_rfl⟩
      simp only [Key.step] at hmem
      split_ifs at hmem
      · cases hmem
      · exact hmem

theorem callPaid_of_fine (hfine : ∀ item ∈ w.pool, item.Fine w.shared) (m : Moves) :
    CallPaid w m := by
  cases m with
  | env => trivial
  | act i c =>
    intro item hk hcalls
    have := hfine item (List.mem_of_getElem? hk)
    obtain ⟨rate, stage, unused⟩ := item
    cases c with
    | next =>
      cases stage with
      | infer attempt => exact this.2
      | _ => cases hcalls
    | _ => cases hcalls

theorem callPaid_of_plain (h : (items floatOfStr).Along (fun v m _ => Plain v m)
      (opened key now) ms) :
    (items floatOfStr).Along (fun v m _ => CallPaid v m) (opened key now) ms := by
  refine (Along.congr (P := fun _ _ _ => True)
    (Q := fun v => ∀ item ∈ v.pool, item.Fine v.shared) h (by simp [opened]) ?_).mp
    (.of_forall fun _ _ _ => trivial)
  intro v m v' hfine hplain hf
  exact ⟨iff_of_true trivial (callPaid_of_fine hfine m), fun _ =>
    (Modular.reach modular_fine trivial hfine (.step .refl hplain hf)).2⟩

/-! ## Runs that come to an end -/

/-- The item is not lost in this move. -/
def Kept : Moves → Prop
  | .act _ .lost => False
  | _ => True

/-- A grant is only held by an item that is about to call. -/
def Item.Bounded (item : Item) : Prop := item.unused ≤ if item.stage.calls then 1 else 0

/-- The item is on its way to a call that it has no grant for. -/
def Item.Owes (item : Item) : Prop :=
  item.unused = 0 ∧ match item.stage with
    | .infer _ => True
    | .pause attempt _ | .pausing attempt _ | .backoff attempt | .sleeping attempt _ =>
      attempt + 1 < 3
    | .acquire | .reading _ | .script .. | .waiting .. | .awaiting _ => False

/-- What is left of the grants, with the one that the turn may bring. -/
def left (stage : Stage) (unused : ℕ) (turn : Turn) : ℕ :=
  (if stage.calls then unused - 1 else unused) + if turn.granted then 1 else 0

theorem Goes.bounded {rate : ℚ} {stage : Stage} {unused : ℕ} (h : Goes s rate c stage turn)
    (hb : Item.Bounded ⟨rate, stage, unused⟩) :
    ∀ next ∈ turn.next, Item.Bounded ⟨rate, next, left stage unused turn⟩ := by
  intro next hnext
  cases h with
  | refused =>
    simp only [afterRefusal] at hnext
    split_ifs at hnext <;> cases hnext
    simpa [Item.Bounded, left, Stage.calls] using hb
  | lost | cancelled | scriptRaises | answered | inferRaises | spent => cases hnext
  | _ =>
    cases hnext
    simp_all [Item.Bounded, left, Stage.calls]

theorem Goes.owes {rate : ℚ} {stage : Stage} {unused : ℕ} (h : Goes s rate c stage turn)
    (howes : Item.Owes ⟨rate, stage, unused⟩) (hlost : c ≠ .lost)
    (hcalls : stage.calls = true → c ≠ .next) :
    ∃ next, turn.next = some next ∧ Item.Owes ⟨rate, next, left stage unused turn⟩ := by
  obtain ⟨hunused, hstage⟩ := howes
  cases h with
  | lost => exact absurd rfl hlost
  | call => exact absurd rfl (hcalls rfl)
  | pauseUntil | paused | pauseRaises | sleep => exact ⟨_, rfl, hunused, hstage⟩
  | again => exact ⟨_, rfl, hunused, trivial⟩
  | spent hspent => exact absurd hstage hspent
  | _ => exact hstage.elim

/-- Where a step is not plain, the item goes on to such a call. -/
theorem Goes.owes_of_not_plain {rate : ℚ} {stage : Stage} {unused : ℕ}
    (h : Goes s rate c stage turn) (hb : Item.Bounded ⟨rate, stage, unused⟩)
    (hplain : ¬ Item.Plain c ⟨rate, stage, unused⟩) :
    ∃ next, turn.next = some next ∧ Item.Owes ⟨rate, next, left stage unused turn⟩ := by
  cases h with
  | unlimited => exact ⟨_, rfl, by simpa [Item.Bounded, left, Stage.calls] using hb, trivial⟩
  | enter hrate => exact absurd hrate hplain
  | pause | noPause =>
    have hunused : unused = 0 := by simpa [Item.Bounded, Stage.calls] using hb
    simp only [Item.Plain, not_forall] at hplain
    obtain ⟨hattempt, -⟩ := hplain
    exact ⟨_, rfl, hunused, hattempt⟩
  | answered hanswered => exact absurd (fun _ => hanswered) hplain
  | _ => exact absurd trivial hplain

/-- A move of an item, and what it leaves of the item. -/
theorem fire_act_iff_turn {i : ℕ} : (items floatOfStr).fire w (.act i c) = some w' ↔
    ∃ item turn, w.pool[i]? = some item ∧
      item.stage.turn floatOfStr item.rate w.shared c = some turn ∧
      w' = ⟨{ w.shared with key := turn.key.getD w.shared.key },
        others w i ++ turn.next.toList.map fun next =>
          { item with stage := next, unused := left item.stage item.unused turn }⟩ := by
  rw [fire_act_iff]
  constructor
  · rintro ⟨item, ⟨s', ks⟩, hk, hstep, rfl⟩
    obtain ⟨turn, hturn, rfl, rfl⟩ := Item.step_iff.mp hstep
    exact ⟨item, turn, hk, hturn, rfl⟩
  · rintro ⟨item, turn, hk, hturn, rfl⟩
    exact ⟨item, _, hk, Item.step_iff.mpr ⟨turn, hturn, rfl, rfl⟩, rfl⟩

/-- Moves of the environment bring at most new items. -/
theorem pool_of_fire_env {e : Outside} (h : (items floatOfStr).fire w (.env e) = some w') :
    ∃ rates : List ℚ, w'.pool = w.pool ++ rates.map fun r => { rate := r } := by
  obtain ⟨⟨s', ks⟩, henv, rfl⟩ := fire_env_iff.mp h
  cases e with
  | tick seconds =>
    simp only [items, Outside.step] at henv
    split_ifs at henv
    cases henv
    exact ⟨[], rfl⟩
  | arrive rate => cases henv; exact ⟨[rate], rfl⟩
  | expire => cases henv; exact ⟨[], rfl⟩

theorem bounded_of_fire {m : Moves} (hb : ∀ item ∈ w.pool, item.Bounded)
    (h : (items floatOfStr).fire w m = some w') : ∀ item ∈ w'.pool, item.Bounded := by
  cases m with
  | act i c =>
    obtain ⟨item, turn, hk, hturn, rfl⟩ := fire_act_iff_turn.mp h
    refine List.forall_mem_append.mpr
      ⟨fun j hj => hb j (mem_of_mem_others hj), List.forall_mem_map.mpr fun next hnext => ?_⟩
    exact (goes_of_turn hturn).bounded (hb item (List.mem_of_getElem? hk)) next
      (Option.mem_toList.mp hnext)
  | env e =>
    obtain ⟨rates, hpool⟩ := pool_of_fire_env h
    rw [hpool]
    refine List.forall_mem_append.mpr ⟨hb, List.forall_mem_map.mpr fun rate _ => ?_⟩
    simp [Item.Bounded]

theorem owes_of_fire {m : Moves} (howes : ∃ item ∈ w.pool, item.Owes) (hkept : Kept m)
    (hpaid : CallPaid w m) (h : (items floatOfStr).fire w m = some w') :
    ∃ item ∈ w'.pool, item.Owes := by
  obtain ⟨item, hmem, howes⟩ := howes
  cases m with
  | act i c =>
    obtain ⟨moved, turn, hk, hturn, rfl⟩ := fire_act_iff_turn.mp h
    rcases (mem_iff_others hk item).mp hmem with rfl | hother
    · have hlost : c ≠ .lost := by
        rintro rfl
        exact hkept
      have hcalls (hcalls : item.stage.calls = true) : c ≠ .next := by
        rintro rfl
        exact (hpaid item hk hcalls).1.ne' howes.1
      obtain ⟨next, hnext, hnow⟩ := (goes_of_turn hturn).owes howes hlost hcalls
      exact ⟨_, List.mem_append_right _ (List.mem_map.mpr
        ⟨next, Option.mem_toList.mpr hnext, rfl⟩), hnow⟩
    · exact ⟨item, List.mem_append_left _ hother, howes⟩
  | env e =>
    obtain ⟨rates, hpool⟩ := pool_of_fire_env h
    exact ⟨item, hpool ▸ List.mem_append_left _ hmem, howes⟩

theorem owes_of_not_plain {m : Moves} (hb : ∀ item ∈ w.pool, item.Bounded) (hplain : ¬ Plain w m)
    (h : (items floatOfStr).fire w m = some w') : ∃ item ∈ w'.pool, item.Owes := by
  cases m with
  | act i c =>
    obtain ⟨item, turn, hk, hturn, rfl⟩ := fire_act_iff_turn.mp h
    have hitem : ¬ item.Plain c := by
      intro hitem
      refine hplain fun j hj => ?_
      obtain rfl := Option.some.inj (hk.symm.trans hj)
      exact hitem
    obtain ⟨next, hnext, howes⟩ :=
      (goes_of_turn hturn).owes_of_not_plain (hb item (List.mem_of_getElem? hk)) hitem
    exact ⟨_, List.mem_append_right _ (List.mem_map.mpr
      ⟨next, Option.mem_toList.mpr hnext, rfl⟩), howes⟩
  | env e => exact absurd trivial hplain

/-! ## Calls and grants -/

theorem Goes.balance {rate : ℚ} {stage : Stage} {unused : ℕ} (h : Goes s rate c stage turn)
    (hpaid : c.calls stage = true → 0 < unused) :
    (turn.next.toList.map fun _ => left stage unused turn).sum + (c.calls stage).toNat ≤
      unused + turn.granted.toNat := by
  cases h with
  | call =>
    have := hpaid rfl
    simp [left, Stage.calls, Choice.calls]
    omega
  | refused =>
    simp only [afterRefusal]
    split_ifs <;> simp [left, Stage.calls, Choice.calls]
  | _ => simp [left, Stage.calls, Choice.calls]

theorem held_of_fire {m : Moves} (hpaid : CallPaid w m)
    (h : (items floatOfStr).fire w m = some w') :
    held w' + (calls w m).toNat ≤ held w + (grants floatOfStr w m).toNat := by
  cases m with
  | act i c =>
    obtain ⟨item, turn, hk, hturn, rfl⟩ := fire_act_iff_turn.mp h
    have hpool : held w = item.unused + ((others w i).map (·.unused)).sum := by
      simpa [held] using ((perm_others hk).map (·.unused)).sum_eq
    have hbalance := (goes_of_turn hturn).balance fun hcalls => (hpaid item hk hcalls).1
    simp only [held, calls, grants, hk, hturn, Option.any_some, List.map_append, List.sum_append,
      List.map_map, Function.comp_def] at hpool ⊢
    omega
  | env e =>
    obtain ⟨rates, hpool⟩ := pool_of_fire_env h
    simp [held, hpool, calls, grants, Function.comp_def]

/-- Every call of the provider is paid for and made outside pauses, if no item of the run
passes the bucket by and no first or second try is answered with a retryable error. Of a run
that loses no item before it ends this is also necessary. And where all calls are paid for,
the calls in any part of the run are no more than the grants in it and those held before. -/
theorem calls_paid_iff
    (hrun : (items floatOfStr).run (fun _ _ => True) (opened key now) ms = some w) :
    ((items floatOfStr).Along (fun v m _ => Plain v m) (opened key now) ms →
        (items floatOfStr).Along (fun v m _ => CallPaid v m) (opened key now) ms) ∧
      ((∀ m ∈ ms, Kept m) → w.pool = [] →
        ((items floatOfStr).Along (fun v m _ => CallPaid v m) (opened key now) ms ↔
          (items floatOfStr).Along (fun v m _ => Plain v m) (opened key now) ms)) ∧
      ((items floatOfStr).Along (fun v m _ => CallPaid v m) (opened key now) ms →
        ∀ before part later v, ms = before ++ part ++ later →
          (items floatOfStr).run (fun _ _ => True) (opened key now) before = some v →
          (items floatOfStr).count calls v part ≤
            held v + (items floatOfStr).count (grants floatOfStr) v part) := by
  refine ⟨callPaid_of_plain, fun hkept hended => ⟨fun hpaid => ?_, callPaid_of_plain⟩, ?_⟩
  · have hok : (items floatOfStr).Along (fun v m _ => CallPaid v m ∧ Kept m)
        (opened key now) ms := hpaid.and (.of_forall_mem hkept)
    refine hok.of_trap (A := fun v => ∀ item ∈ v.pool, item.Bounded)
      (Q := fun v => ∃ item ∈ v.pool, item.Owes) hrun (by simp [opened]) ?_ ?_ ?_
      (by simp [hended])
    · exact fun v m v' hb _ hf => bounded_of_fire hb hf
    · exact fun v m v' hb _ hplain hf => owes_of_not_plain hb hplain hf
    · exact fun v m v' howes hok hf => owes_of_fire howes hok.2 hok.1 hf
  · rintro hpaid before part later v rfl hbefore
    rw [List.append_assoc, run_append, hbefore, Option.bind_some, run_append] at hrun
    obtain ⟨u, hpart, -⟩ := Option.bind_eq_some_iff.mp hrun
    rw [List.append_assoc] at hpaid
    have := (hpaid.right hbefore).left.count_le (P := calls) (G := grants floatOfStr)
      (B := held) hpart fun v m v' hok hf => held_of_fire hok hf
    omega

/-! ## One item -/

/-- `float` of the one header that the runs below use. -/
def floatOfTen (text : String) : Option ℚ := if text = "10" then some 10 else none

/-- The first call of an item, and the answer. -/
def firstCall (result : InferenceResult) (retryAfter : Option String) : List Moves :=
  .env (.arrive 1) :: List.replicate 4 (.act 0 .next) ++ [.act 0 (.reply result retryAfter)]

theorem calls_paid_iff_answered : ∃ w,
    (items floatOfTen).run (fun _ _ => True) (opened {} 0) (firstCall { ok := true } none) =
      some w ∧ (∀ m ∈ firstCall { ok := true } none, Kept m) ∧ w.pool = [] ∧
    ((items floatOfTen).Along (fun v m _ => CallPaid v m) (opened {} 0)
        (firstCall { ok := true } none) ↔
      (items floatOfTen).Along (fun v m _ => Plain v m) (opened {} 0)
        (firstCall { ok := true } none)) := by
  have hrun : ((items floatOfTen).run (fun _ _ => True) (opened {} 0)
      (firstCall { ok := true } none)).map (·.pool) = some [] := by decide +kernel
  obtain ⟨w, hw, hended⟩ := Option.map_eq_some_iff.mp hrun
  have hkept : ∀ m ∈ firstCall { ok := true } none, Kept m := by simp [firstCall, Kept]
  exact ⟨w, hw, hkept, hended, (calls_paid_iff hw).2.1 hkept hended⟩

/-- The answer is a 429 with `Retry-After: 10`; the item pauses the bucket and sleeps for a
second. -/
def beforeRetry : List Moves :=
  firstCall { ok := false, errorKind := some .retryable } (some "10") ++
    [.act 0 .next, .act 0 .next, .act 0 (.jitter 1), .env (.tick 1), .act 0 .next]

/-- It calls again without a grant, inside its own pause. -/
theorem retry_unpaid_in_pause : ∃ w,
    (items floatOfTen).run (fun _ _ => True) (opened {} 0) beforeRetry = some w ∧
    calls w (.act 0 .next) = true ∧ held w = 0 ∧
    ∃ until_ts ∈ w.shared.key.hash.pauseUntil, w.shared.now < until_ts := by
  have hrun : ((items floatOfTen).run (fun _ _ => True) (opened {} 0) beforeRetry).map
      (fun w => (calls w (.act 0 .next), held w, w.shared.key.hash.pauseUntil, w.shared.now)) =
      some (true, 0, some 10, 1) := by decide +kernel
  obtain ⟨w, hw, hseen⟩ := Option.map_eq_some_iff.mp hrun
  simp only [Prod.mk.injEq] at hseen
  obtain ⟨hcalls, hheld, hpause, hnow⟩ := hseen
  exact ⟨w, hw, hcalls, hheld, 10, hpause, by rw [hnow]; norm_num⟩

end BatchInference.ProviderCalls
