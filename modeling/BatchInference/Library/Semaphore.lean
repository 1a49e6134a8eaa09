import Mathlib.Data.List.Basic

/-!
# Semaphores of an event loop

`asyncio.Semaphore`, with its counter and the deque of its waiters. A waiter's future is set by
whoever hands a permit over, and the waiter goes on later, as the event loop schedules it; it may
be cancelled before and after that. Tasks are numbered in the order in which they have called
`acquire`.

`Sound` is what every event keeps: the permits are the counter, those handed over and those in
use; nobody waits while the counter is positive, unless a waiter is about to go on, which will
wake it; and nobody is served before a task that waits and has arrived earlier.
-/

namespace Semaphore

/-- The future of a waiter: not done, set, cancelled, or set and its task cancelled since. -/
inductive Future where
  | pending | set | cancelled | revoked
  deriving DecidableEq, Repr

structure Waiter where
  task : Nat
  future : Future
  deriving DecidableEq, Repr

def Waiter.pending (w : Waiter) : Bool := w.future = .pending

/-- The waiter has been handed a permit. -/
def Waiter.handed (w : Waiter) : Bool := w.future = .set || w.future = .revoked

structure State where
  value : Nat
  waiters : List Waiter := []
  inside : List Nat := []
  arrivals : Nat := 0
  deriving DecidableEq, Repr

inductive Event where
  | acquire
  | cancel (task : Nat)
  | resume (task : Nat)
  | release (task : Nat)
  deriving DecidableEq, Repr

/-- `locked` -/
def State.locked (s : State) : Bool :=
  s.value = 0 || s.waiters.any fun w => w.future ≠ .cancelled

/-- `_wake_up_next`, `none` if there is nobody to wake up. -/
def wakeUpNext : List Waiter → Option (List Waiter)
  | [] => none
  | w :: ws =>
    if w.future = .pending then some ({ w with future := .set } :: ws)
    else (wakeUpNext ws).map (w :: ·)

/-- `while self._value > 0: if not self._wake_up_next(): break` -/
def wakeAll : Nat → List Waiter → Nat × List Waiter
  | 0, ws => (0, ws)
  | value + 1, ws => match wakeUpNext ws with
    | none => (value + 1, ws)
    | some ws' => wakeAll value ws'

/-- One more permit, for the first waiter if there is one. -/
def putBack (value : Nat) (ws : List Waiter) : Nat × List Waiter :=
  match wakeUpNext ws with
  | none => (value + 1, ws)
  | some ws' => (value, ws')

def cancelFuture : Future → Option Future
  | .pending => some .cancelled
  | .set => some .revoked
  | .cancelled | .revoked => none

def cancelWaiter (task : Nat) : List Waiter → Option (List Waiter)
  | [] => none
  | w :: ws =>
    if w.task = task then (cancelFuture w.future).map fun f => { w with future := f } :: ws
    else (cancelWaiter task ws).map (w :: ·)

/-- What `acquire` does when the task goes on: the permits it brings back and whether it is in. -/
def Future.outcome : Future → Option (Nat × Bool)
  | .pending => none
  | .set => some (0, true)
  | .cancelled => some (0, false)
  | .revoked => some (1, false)

def step (s : State) : Event → Option State
  | .acquire =>
    if s.locked then
      some { s with waiters := s.waiters ++ [⟨s.arrivals, .pending⟩], arrivals := s.arrivals + 1 }
    else
      some { s with
        value := s.value - 1, inside := s.inside ++ [s.arrivals], arrivals := s.arrivals + 1 }
  | .cancel task => (cancelWaiter task s.waiters).map fun ws => { s with waiters := ws }
  | .resume task => do
    let w ← s.waiters.find? (·.task = task)
    let (back, enters) ← w.future.outcome
    let (value, ws) := wakeAll (s.value + back) (s.waiters.erase w)
    return { s with
      value := value, waiters := ws, inside := if enters then s.inside ++ [task] else s.inside }
  | .release task =>
    if task ∈ s.inside then
      let (value, ws) := putBack s.value s.waiters
      some { s with value := value, waiters := ws, inside := s.inside.erase task }
    else none

def init (permits : Nat) : State := { value := permits }

/-! ## What every event keeps -/

/-- The permits are accounted for, and nobody is served before a task that has waited longer. -/
structure Balanced (permits : Nat) (s : State) : Prop where
  balance : s.value + s.inside.length + s.waiters.countP (·.handed) = permits
  sorted : s.waiters.Pairwise fun v w => v.task < w.task
  arrived : ∀ w ∈ s.waiters, w.task < s.arrivals
  entered : ∀ t ∈ s.inside, t < s.arrivals
  fair : ∀ w ∈ s.waiters, w.pending = true →
    (∀ t ∈ s.inside, t < w.task) ∧ ∀ v ∈ s.waiters, v.handed = true → v.task < w.task

structure Sound (permits : Nat) (s : State) : Prop extends Balanced permits s where
  awake : 0 < s.value → (∃ w ∈ s.waiters, w.pending = true) → ∃ w ∈ s.waiters, w.handed = true

variable {permits task value arrivals : Nat} {s s' : State} {w : Waiter} {ws ws' : List Waiter}
  {inside : List Nat}

theorem wakeUpNext_eq_none : wakeUpNext ws = none ↔ ∀ w ∈ ws, w.pending = false := by
  induction ws with
  | nil => simp [wakeUpNext]
  | cons w ws ih =>
    rw [wakeUpNext, List.forall_mem_cons]
    split
    · rename_i h
      simp [Waiter.pending, h]
    · rename_i h
      simp [ih, Waiter.pending, h]

/-- The first waiter whose future is not done is handed the permit. -/
theorem wakeUpNext_eq_some (h : wakeUpNext ws = some ws') : ∃ before w after,
    ws = before ++ w :: after ∧ w.pending = true ∧ (∀ v ∈ before, v.pending = false) ∧
      ws' = before ++ { w with future := .set } :: after := by
  induction ws generalizing ws' with
  | nil => cases h
  | cons w ws ih =>
    rw [wakeUpNext] at h
    split at h
    · rename_i hw
      cases h
      exact ⟨[], w, ws, rfl, by simp [Waiter.pending, hw], by simp, rfl⟩
    · rename_i hw
      obtain ⟨ws₁, h₁, rfl⟩ := Option.map_eq_some_iff.mp h
      obtain ⟨before, v, after, rfl, hv, hbefore, rfl⟩ := ih h₁
      refine ⟨w :: before, v, after, rfl, hv, List.forall_mem_cons.mpr ⟨?_, hbefore⟩, rfl⟩
      simp [Waiter.pending, hw]

theorem handed_of_pending (h : w.pending = true) : w.handed = false := by
  simp only [Waiter.pending, decide_eq_true_eq] at h
  simp [Waiter.handed, h]

/-- A permit goes from the counter to the first waiter. -/
theorem Balanced.wake (h : Balanced permits ⟨value + 1, ws, inside, arrivals⟩)
    (hw : wakeUpNext ws = some ws') : Balanced permits ⟨value, ws', inside, arrivals⟩ := by
  obtain ⟨before, w, after, rfl, hpending, hbefore, rfl⟩ := wakeUpNext_eq_some hw
  obtain ⟨hbalance, hsorted, harrived, hentered, hfair⟩ := h
  simp only [List.countP_append, List.countP_cons, handed_of_pending hpending,
    List.pairwise_append, List.pairwise_cons, List.forall_mem_append, List.forall_mem_cons]
    at hbalance hsorted harrived hentered hfair
  obtain ⟨hfairBefore, hfairFirst, hfairAfter⟩ := hfair
  refine ⟨?_, ?_, ?_, hentered, ?_⟩
  · simp [List.countP_append, Waiter.handed] at hbalance ⊢
    omega
  · simpa only [List.pairwise_append, List.pairwise_cons, List.forall_mem_cons] using hsorted
  · simpa only [List.forall_mem_append, List.forall_mem_cons] using harrived
  · intro v hv hpend
    rcases List.mem_append.mp hv with hv | hv
    · simp [hbefore v hv] at hpend
    · rcases List.mem_cons.mp hv with rfl | hv
      · cases hpend
      · obtain ⟨hin, hb, -, ha⟩ := hfairAfter v hv hpend
        refine ⟨hin, ?_⟩
        simp only [List.forall_mem_append, List.forall_mem_cons]
        exact ⟨hb, fun _ => hsorted.2.1.1 v hv, ha⟩

theorem Balanced.wakeAll (h : Balanced permits ⟨value, ws, inside, arrivals⟩) :
    Balanced permits ⟨(wakeAll value ws).1, (wakeAll value ws).2, inside, arrivals⟩ ∧
    (0 < (Semaphore.wakeAll value ws).1 →
      ∀ w ∈ (Semaphore.wakeAll value ws).2, w.pending = false) := by
  induction value generalizing ws with
  | zero => exact ⟨h, fun hpos => absurd hpos (Nat.lt_irrefl 0)⟩
  | succ value ih =>
    rw [Semaphore.wakeAll]
    split
    · exact ⟨h, fun _ => wakeUpNext_eq_none.mp ‹_›⟩
    · exact ih (h.wake ‹_›)

theorem Balanced.sound_of_idle (h : Balanced permits s)
    (hidle : 0 < s.value → ∀ w ∈ s.waiters, w.pending = false) : Sound permits s :=
  { h with
    awake := fun hpos ⟨w, hw, hpending⟩ => by simp [hidle hpos w hw] at hpending }

theorem cancelFuture_eq_some {f f' : Future} (h : cancelFuture f = some f') :
    f = .pending ∧ f' = .cancelled ∨ f = .set ∧ f' = .revoked := by
  cases f <;> cases h <;> simp

theorem cancelWaiter_eq_some (h : cancelWaiter task ws = some ws') : ∃ before w after f,
    ws = before ++ w :: after ∧ cancelFuture w.future = some f ∧
      ws' = before ++ { w with future := f } :: after := by
  induction ws generalizing ws' with
  | nil => cases h
  | cons w ws ih =>
    rw [cancelWaiter] at h
    split at h
    · obtain ⟨f, hf, rfl⟩ := Option.map_eq_some_iff.mp h
      exact ⟨[], w, ws, f, rfl, hf, rfl⟩
    · obtain ⟨ws₁, h₁, rfl⟩ := Option.map_eq_some_iff.mp h
      obtain ⟨before, v, after, f, rfl, hf, rfl⟩ := ih h₁
      exact ⟨w :: before, v, after, f, rfl, hf, rfl⟩

theorem Sound.acquire (h : Sound permits s) (hs : step s .acquire = some s') :
    Sound permits s' := by
  obtain ⟨⟨hbalance, hsorted, harrived, hentered, hfair⟩, hawake⟩ := h
  rw [step] at hs
  split at hs
  · rename_i hlocked
    cases hs
    refine ⟨⟨?_, ?_, ?_, ?_, ?_⟩, fun hpos _ => ?_⟩
    · simpa [List.countP_append, Waiter.handed] using hbalance
    · simpa [List.pairwise_append] using ⟨hsorted, harrived⟩
    · simp only [List.forall_mem_append, List.forall_mem_singleton]
      exact ⟨fun w hw => Nat.lt_succ_of_lt (harrived w hw), Nat.lt_succ_self _⟩
    · exact fun t ht => Nat.lt_succ_of_lt (hentered t ht)
    · simp only [List.forall_mem_append, List.forall_mem_singleton]
      refine ⟨fun w hw hpending => ?_, fun _ => ?_⟩
      · obtain ⟨hin, hout⟩ := hfair w hw hpending
        exact ⟨hin, hout, by simp [Waiter.handed]⟩
      · exact ⟨hentered, fun v hv _ => harrived v hv, by simp [Waiter.handed]⟩
    · -- a waiter that is not cancelled waits itself, so that another one has been woken
      simp only [State.locked, Nat.ne_of_gt hpos, decide_false, Bool.false_or, List.any_eq_true,
        decide_eq_true_eq] at hlocked
      obtain ⟨w, hw, hnot⟩ := hlocked
      have hhanded : ∃ v ∈ s.waiters, v.handed = true := by
        by_cases hpending : w.pending = true
        · exact hawake hpos ⟨w, hw, hpending⟩
        · refine ⟨w, hw, ?_⟩
          cases hf : w.future <;> simp_all [Waiter.pending, Waiter.handed]
      obtain ⟨v, hv, hhanded⟩ := hhanded
      exact ⟨v, List.mem_append_left _ hv, hhanded⟩
  · rename_i hopen
    cases hs
    simp only [State.locked, Bool.or_eq_true, not_or, List.any_eq_true, decide_eq_true_eq,
      not_exists, not_and, not_not] at hopen
    obtain ⟨hpos, hcancelled⟩ := hopen
    have hnone : ∀ w ∈ s.waiters, w.pending = false := by
      intro w hw
      simp [Waiter.pending, hcancelled w hw]
    refine ⟨⟨?_, hsorted, ?_, ?_, ?_⟩, ?_⟩
    · simp only [List.length_append, List.length_singleton]
      omega
    · exact fun w hw => Nat.lt_succ_of_lt (harrived w hw)
    · simp only [List.forall_mem_append, List.forall_mem_singleton]
      exact ⟨fun t ht => Nat.lt_succ_of_lt (hentered t ht), Nat.lt_succ_self _⟩
    · exact fun w hw hpending => by simp [hnone w hw] at hpending
    · rintro - ⟨w, hw, hpending⟩
      simp [hnone w hw] at hpending

theorem Sound.cancel (h : Sound permits s) (hs : step s (.cancel task) = some s') :
    Sound permits s' := by
  obtain ⟨ws', hws, rfl⟩ := Option.map_eq_some_iff.mp hs
  obtain ⟨before, w, after, f, hwaiters, hf, rfl⟩ := cancelWaiter_eq_some hws
  obtain ⟨⟨hbalance, hsorted, harrived, hentered, hfair⟩, hawake⟩ := h
  -- the waiter keeps its permit if it has one, and waits no more
  have hhanded : Waiter.handed { w with future := f } = w.handed := by
    rcases cancelFuture_eq_some hf with ⟨h₁, rfl⟩ | ⟨h₁, rfl⟩ <;> simp [Waiter.handed, h₁]
  have hpending : Waiter.pending { w with future := f } = false := by
    rcases cancelFuture_eq_some hf with ⟨-, rfl⟩ | ⟨-, rfl⟩ <;> rfl
  rw [hwaiters] at hbalance hsorted harrived hfair hawake
  simp only [List.countP_append, List.countP_cons, List.pairwise_append, List.pairwise_cons,
    List.forall_mem_append, List.forall_mem_cons] at hbalance hsorted harrived hfair
  refine ⟨⟨?_, ?_, ?_, hentered, ?_⟩, fun hpos ⟨v, hv, hwaits⟩ => ?_⟩
  · simpa only [List.countP_append, List.countP_cons, hhanded] using hbalance
  · simpa only [List.pairwise_append, List.pairwise_cons, List.forall_mem_cons] using hsorted
  · simpa only [List.forall_mem_append, List.forall_mem_cons] using harrived
  · simp only [List.forall_mem_append, List.forall_mem_cons, hpending, hhanded]
    exact ⟨hfair.1, Bool.noConfusion, hfair.2.2⟩
  · have hold : v ∈ before ++ w :: after := by
      rcases List.mem_append.mp hv with hv | hv
      · exact List.mem_append_left _ hv
      · rcases List.mem_cons.mp hv with rfl | hv
        · simp [hpending] at hwaits
        · exact List.mem_append_right _ (List.mem_cons_of_mem _ hv)
    obtain ⟨u, hu, hserved⟩ := hawake hpos ⟨v, hold, hwaits⟩
    rcases List.mem_append.mp hu with hu | hu
    · exact ⟨u, List.mem_append_left _ hu, hserved⟩
    · rcases List.mem_cons.mp hu with rfl | hu
      · exact ⟨_, List.mem_append_right _ List.mem_cons_self, hhanded.trans hserved⟩
      · exact ⟨u, List.mem_append_right _ (List.mem_cons_of_mem _ hu), hserved⟩

theorem outcome_eq_some {f : Future} {back : Nat} {enters : Bool}
    (h : f.outcome = some (back, enters)) : f ≠ .pending ∧
      back + enters.toNat = if f = .set ∨ f = .revoked then 1 else 0 := by
  cases f <;> cases h <;> simp

theorem Sound.resume (h : Sound permits s) (hs : step s (.resume task) = some s') :
    Sound permits s' := by
  obtain ⟨w, hfind, hs⟩ := Option.bind_eq_some_iff.mp hs
  obtain ⟨⟨back, enters⟩, hout, hs⟩ := Option.bind_eq_some_iff.mp hs
  cases hs
  obtain ⟨hnot, hpermit⟩ := outcome_eq_some hout
  have hw : w ∈ s.waiters := List.mem_of_find?_eq_some hfind
  have htask : w.task = task := by simpa using List.find?_some hfind
  obtain ⟨⟨hbalance, hsorted, harrived, hentered, hfair⟩, -⟩ := h
  generalize hinside : (if enters then s.inside ++ [task] else s.inside) = inside
  have herase : ∀ v ∈ s.waiters.erase w, v ∈ s.waiters := fun v hv => List.mem_of_mem_erase hv
  have hlength : inside.length = s.inside.length + enters.toNat := by
    rw [← hinside]
    cases enters <;> simp
  have hmem : ∀ t ∈ inside, t ∈ s.inside ∨ enters = true ∧ t = task := by
    intro t ht
    rw [← hinside] at ht
    cases enters with
    | true => simpa using ht
    | false => exact .inl ht
  have hcount : s.waiters.countP (·.handed) =
      (s.waiters.erase w).countP (·.handed) + (if w.handed = true then 1 else 0) := by
    rw [(List.perm_cons_erase hw).countP_eq, List.countP_cons]
  have hhanded : w.handed = decide (w.future = .set ∨ w.future = .revoked) := by
    simp [Waiter.handed]
  have hbalanced :
      Balanced permits ⟨s.value + back, s.waiters.erase w, inside, s.arrivals⟩ := by
    refine ⟨?_, hsorted.sublist List.erase_sublist, fun v hv => harrived v (herase v hv),
      fun t ht => ?_, fun v hv hpending => ⟨fun t ht => ?_, fun u hu => ?_⟩⟩
    · simp only [hlength]
      rw [hcount, hhanded] at hbalance
      simp only [decide_eq_true_eq] at hbalance
      omega
    · rcases hmem t ht with ht | ⟨-, rfl⟩
      · exact hentered t ht
      · exact htask ▸ harrived w hw
    · obtain ⟨hin, hothers⟩ := hfair v (herase v hv) hpending
      rcases hmem t ht with ht | ⟨henters, rfl⟩
      · exact hin t ht
      · refine htask ▸ hothers w hw ?_
        rw [hhanded, decide_eq_true_eq]
        by_contra hnone
        rw [if_neg hnone, henters] at hpermit
        simp at hpermit
    · exact (hfair v (herase v hv) hpending).2 u (herase u hu)
  obtain ⟨hall, hidle⟩ := hbalanced.wakeAll
  exact hall.sound_of_idle hidle

theorem Sound.release (h : Sound permits s) (hs : step s (.release task) = some s') :
    Sound permits s' := by
  obtain ⟨⟨hbalance, hsorted, harrived, hentered, hfair⟩, -⟩ := h
  rw [step] at hs
  split at hs
  · rename_i hin
    have herase : ∀ t ∈ s.inside.erase task, t ∈ s.inside := fun t ht => List.mem_of_mem_erase ht
    have hlength := List.length_erase_add_one hin
    have hbalanced :
        Balanced permits ⟨s.value + 1, s.waiters, s.inside.erase task, s.arrivals⟩ := by
      refine ⟨?_, hsorted, harrived, fun t ht => hentered t (herase t ht),
        fun w hw hpending => ?_⟩
      · dsimp only
        omega
      · obtain ⟨hfirst, hothers⟩ := hfair w hw hpending
        exact ⟨fun t ht => hfirst t (herase t ht), hothers⟩
    simp only [putBack] at hs
    split at hs <;> cases hs
    · exact hbalanced.sound_of_idle fun _ => wakeUpNext_eq_none.mp ‹_›
    · rename_i ws' hwake
      obtain ⟨before, w, after, -, -, -, rfl⟩ := wakeUpNext_eq_some hwake
      exact ⟨hbalanced.wake hwake, fun _ _ =>
        ⟨_, List.mem_append_right _ List.mem_cons_self, by simp [Waiter.handed]⟩⟩
  · cases hs

theorem Sound.step {e : Event} (h : Sound permits s) (hs : step s e = some s') :
    Sound permits s' := by
  cases e with
  | acquire => exact h.acquire hs
  | cancel task => exact h.cancel hs
  | resume task => exact h.resume hs
  | release task => exact h.release hs

theorem sound_init (permits : Nat) : Sound permits (init permits) := by
  refine ⟨⟨?_, ?_, ?_, ?_, ?_⟩, ?_⟩ <;> simp [init]

/-! ## What follows -/

theorem Sound.inside_le (h : Sound permits s) : s.inside.length ≤ permits := by
  have := h.balance
  omega

/-- A task waits only while all permits are in use, or a waiter that has been woken has yet to
go on. -/
theorem Sound.full (h : Sound permits s) (hwaits : ∃ w ∈ s.waiters, w.pending = true)
    (hnone : ∀ w ∈ s.waiters, w.handed = false) : s.inside.length = permits := by
  have hcount : s.waiters.countP (·.handed) = 0 := by
    rw [List.countP_eq_zero]
    exact fun w hw => by simp [hnone w hw]
  have hvalue : s.value = 0 := by
    by_contra hpos
    obtain ⟨w, hw, hhanded⟩ := h.awake (Nat.pos_of_ne_zero hpos) hwaits
    simp [hnone w hw] at hhanded
  have := h.balance
  omega

/-- No permit is lost: when nobody is there, all of them are free. -/
theorem Sound.value_eq (h : Sound permits s) (hin : s.inside = []) (hout : s.waiters = []) :
    s.value = permits := by
  simpa [hin, hout] using h.balance

end Semaphore
