import Mathlib.Algebra.Order.Ring.Int
import Mathlib.Logic.Function.Basic
import BatchInference.Library.Semaphore

/-!
# Items of a batch at once

The gate of one worker process has a semaphore for each batch, shared by all chunks of the batch
that the process works on. An item is inside from the end of `acquire` to the end of the
`async with` block of `run_one`, which is left by a result, an exception or a cancellation. A
gather that raises leaves its other items running, and these stay inside as well.
-/

namespace BatchInference

/-- `BatchConcurrencyGate._semaphores`; nothing calls `drop`. -/
abbrev BatchConcurrencyGate := String → Option Semaphore.State

namespace BatchConcurrencyGate

/-- `asyncio.Semaphore(max(1, max_concurrency))` -/
def permits (maxConcurrency : Int) : Nat := (max 1 maxConcurrency).toNat

/-- `get`: the first caller's `max_concurrency` stays. -/
def get (gate : BatchConcurrencyGate) (batchId : String) (maxConcurrency : Int) :
    BatchConcurrencyGate :=
  match gate batchId with
  | some _ => gate
  | none => Function.update gate batchId (some (Semaphore.init (permits maxConcurrency)))

/-- What the jobs of the process do with the gate: process_chunk gets the semaphore before its
gather, and an item's `run_one` comes to it, waits, is cancelled there, goes on or leaves. -/
inductive Use where
  | get (batchId : String) (maxConcurrency : Int)
  | item (batchId : String) (event : Semaphore.Event)
  deriving DecidableEq, Repr

def step (gate : BatchConcurrencyGate) : Use → Option BatchConcurrencyGate
  | .get batchId maxConcurrency => some (gate.get batchId maxConcurrency)
  | .item batchId event => do
    let s ← gate batchId
    let s' ← Semaphore.step s event
    return Function.update gate batchId (some s')

/-- `none` where one of the uses is not possible. -/
def run (gate : BatchConcurrencyGate) : List Use → Option BatchConcurrencyGate
  | [] => some gate
  | use :: uses => (step gate use).bind fun gate' => run gate' uses

variable {gate gate' : BatchConcurrencyGate} {maxConcurrency : String → Int} {use : Use}
  {uses : List Use} {batchId : String} {s : Semaphore.State}

/-- Each semaphore was made for its batch. -/
def Sound (maxConcurrency : String → Int) (gate : BatchConcurrencyGate) : Prop :=
  ∀ batchId s, gate batchId = some s →
    Semaphore.Sound (permits (maxConcurrency batchId)) s

theorem Sound.update (h : Sound maxConcurrency gate)
    (hs : Semaphore.Sound (permits (maxConcurrency batchId)) s) :
    Sound maxConcurrency (Function.update gate batchId (some s)) := by
  intro batchId' s' hs'
  by_cases heq : batchId' = batchId
  · subst heq
    rw [Function.update_self] at hs'
    exact Option.some.inj hs' ▸ hs
  · rw [Function.update_of_ne heq] at hs'
    exact h batchId' s' hs'

theorem Sound.step (h : Sound maxConcurrency gate)
    (huse : ∀ batchId n, use = .get batchId n → n = maxConcurrency batchId)
    (hs : gate.step use = some gate') : Sound maxConcurrency gate' := by
  cases use with
  | get batchId n =>
    obtain rfl := huse batchId n rfl
    cases hs
    rw [get]
    split
    · exact h
    · exact h.update (Semaphore.sound_init _)
  | item batchId event =>
    obtain ⟨s, hgate, hs⟩ := Option.bind_eq_some_iff.mp hs
    obtain ⟨s', hstep, hs⟩ := Option.bind_eq_some_iff.mp hs
    cases hs
    exact h.update ((h batchId s hgate).step hstep)

theorem Sound.run (h : Sound maxConcurrency gate)
    (huses : ∀ batchId n, .get batchId n ∈ uses → n = maxConcurrency batchId)
    (hs : gate.run uses = some gate') : Sound maxConcurrency gate' := by
  induction uses generalizing gate with
  | nil => exact Option.some.inj hs ▸ h
  | cons use uses ih =>
    obtain ⟨gate₁, hstep, hrun⟩ := Option.bind_eq_some_iff.mp hs
    refine ih (h.step (fun batchId n heq => ?_) hstep)
      (fun batchId n hm => huses batchId n (List.mem_cons_of_mem _ hm)) hrun
    exact huses batchId n (heq ▸ List.mem_cons_self)

end BatchConcurrencyGate

open BatchConcurrencyGate

/-- A worker process has at most `max(1, max_concurrency)` items of a batch inside at a time,
whatever chunks they are of and however their jobs end. An item waits only while as many are
inside, unless a waiter that has been woken has yet to go on; nobody inside has come after an item
that waits; and no permit is lost. -/
theorem gate_bounds {maxConcurrency : String → Int} {uses : List Use} {gate : BatchConcurrencyGate}
    {batchId : String} {s : Semaphore.State}
    (huses : ∀ batchId n, .get batchId n ∈ uses → n = maxConcurrency batchId)
    (hrun : BatchConcurrencyGate.run (fun _ => none) uses = some gate)
    (hs : gate batchId = some s) :
    (s.inside.length : Int) ≤ max 1 (maxConcurrency batchId) ∧
    (∀ w ∈ s.waiters, w.pending = true →
      ((s.inside.length : Int) = max 1 (maxConcurrency batchId) ∨
        ∃ v ∈ s.waiters, v.handed = true) ∧
      (∀ t ∈ s.inside, t < w.task) ∧ ∀ v ∈ s.waiters, v.handed = true → v.task < w.task) ∧
    (s.inside = [] → s.waiters = [] → (s.value : Int) = max 1 (maxConcurrency batchId)) := by
  have hempty : Sound maxConcurrency fun _ => none := fun _ _ => nofun
  have hsound := hempty.run huses hrun batchId s hs
  have hpermits : ((permits (maxConcurrency batchId) : Nat) : Int) =
      max 1 (maxConcurrency batchId) := by
    unfold permits
    omega
  refine ⟨?_, fun w hw hpending => ⟨?_, hsound.fair w hw hpending⟩, fun hin hout => ?_⟩
  · have := hsound.inside_le
    omega
  · by_cases hhanded : ∃ v ∈ s.waiters, v.handed = true
    · exact .inr hhanded
    · push Not at hhanded
      have := hsound.full ⟨w, hw, hpending⟩ fun v hv => eq_false_of_ne_true (hhanded v hv)
      omega
  · have := hsound.value_eq hin hout
    omega

/-- Four items of two chunks, one at a time: the second is cancelled while it waits, the third
when it has been woken. -/
def crowdedUses : List Use :=
  [.get "01" (-5), .item "01" .acquire, .item "01" .acquire, .get "01" (-5),
    .item "01" .acquire, .item "01" .acquire, .item "01" (.cancel 1), .item "01" (.release 0),
    .item "01" (.cancel 2), .item "01" (.resume 1)]

theorem gate_bounds_crowded : ∃ gate,
    BatchConcurrencyGate.run (fun _ => none) crowdedUses = some gate ∧
    gate "01" = some ⟨0, [⟨2, .revoked⟩, ⟨3, .pending⟩], [], 4⟩ ∧
    (∀ t ∈ ([] : List Nat), t < 3) ∧ ∃ v ∈ [(⟨2, .revoked⟩ : Semaphore.Waiter), ⟨3, .pending⟩],
      v.handed = true ∧ v.task < 3 := by
  have hrun : ((BatchConcurrencyGate.run (fun _ => none) crowdedUses).bind (· "01")) =
      some ⟨0, [⟨2, .revoked⟩, ⟨3, .pending⟩], [], 4⟩ := by decide +kernel
  obtain ⟨gate, hgate, hs⟩ := Option.bind_eq_some_iff.mp hrun
  have huses : ∀ batchId n, .get batchId n ∈ crowdedUses → n = (fun _ => -5) batchId := by
    intro batchId n hm
    simp [crowdedUses] at hm
    simpa using hm.2
  obtain ⟨-, hwaits, -⟩ := gate_bounds huses hgate hs
  obtain ⟨-, hin, hout⟩ := hwaits ⟨3, .pending⟩ (by simp) rfl
  exact ⟨gate, hgate, hs, hin, ⟨2, .revoked⟩, by simp, rfl, hout _ (by simp) rfl⟩

end BatchInference
