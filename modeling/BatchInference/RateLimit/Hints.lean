import BatchInference.RateLimit.Bucket
import Mathlib.Algebra.Order.Floor.Semiring

/-!
# Waiting for a token

A refused call is told how long to wait. The bucket of a batch that calls with its own rate
for a capacity never holds more than that: with a rate below 1 there is never a whole token
in it, and with any other rate the hint of a refusal is long enough.
-/

namespace BatchInference

open Machine

variable {rate now t : ℚ} {key : Key} {op : Op}

/-- A call is one that process_chunk makes for a batch with this rate. -/
def Op.Own (rate : ℚ) (op : Op) : Prop :=
  ∀ capacity rate' requested now, op = .acquire capacity rate' requested now →
    op = .call rate now

/-- In any state of a bucket that only such calls, pauses and expiry have brought about, and
with no pause in force: a call that is refused is granted when it is made again after the
time of the hint, and nobody else has called. -/
def LetsThrough (rate : ℚ) : Prop :=
  ∀ ops : List Op, (∀ op ∈ ops, op.Own rate) → ∀ now, (after Key.step {} ops).hash.paused ≤ now →
    ∀ waitMs, (tokenBucketLua rate rate 1 now (after Key.step {} ops).hash).2 = ⟨false, waitMs⟩ →
      ∀ (drops : List ℚ) (t : ℚ), now + waitMs / 1000 ≤ t → 0 ≤ t →
        ((after Key.step {} (ops ++ .call rate now :: drops.map .expire)).step
          (.call rate t)).2 = true

/-- The bucket never holds more than its capacity. -/
theorem not_granted_of_lt_one (h : rate < 1) (key : Key) (t : ℚ) :
    (key.step (.call rate t)).2 = false := by
  rcases key.acquire_cases rate rate 1 t with ⟨-, hstep⟩ | ⟨-, ⟨-, hstep⟩ | ⟨hfound, -⟩⟩
  · rw [Op.call, hstep]
  · rw [Op.call, hstep]
  · exact absurd h (not_lt.mpr (hfound.trans (min_le_left ..)))

theorem granted_of_refilled (hpaused : key.hash.paused ≤ t)
    (h : 1 ≤ key.hash.refilled rate rate t) : (key.step (.call rate t)).2 = true := by
  rcases key.acquire_cases rate rate 1 t with ⟨hlt, -⟩ | ⟨-, ⟨hshort, -⟩ | ⟨-, hstep⟩⟩
  · exact absurd hpaused hlt.not_ge
  · exact absurd h hshort.not_ge
  · rw [Op.call, hstep]

/-- A key that may have been dropped is the key, or a fresh one. -/
theorem hash_after_expire (key : Key) (drops : List ℚ) :
    (after Key.step key (drops.map .expire)).hash = key.hash ∨
      (after Key.step key (drops.map .expire)).hash = {} := by
  induction drops generalizing key with
  | nil => exact .inl rfl
  | cons u drops ih =>
    rw [List.map_cons, after_cons]
    rcases ih (key.step (.expire u)).1 with h | h
    · rw [h]
      simp only [Key.step]
      split
      · exact .inr rfl
      · exact .inl rfl
    · exact .inr h

/-- What a refusal writes and what it says, when the bucket is not paused. -/
theorem refused_call (hpaused : key.hash.paused ≤ now) {waitMs : ℤ}
    (h : (tokenBucketLua rate rate 1 now key.hash).2 = ⟨false, waitMs⟩) :
    key.hash.refilled rate rate now < 1 ∧
      waitMs = ⌈(1 - key.hash.refilled rate rate now) / rate * 1000⌉ ∧
      (key.step (.call rate now)).1 = key.write (key.hash.refilled rate rate now) now := by
  rw [tokenBucketLua_eq, if_neg hpaused.not_gt] at h
  split at h
  · rename_i hshort
    refine ⟨hshort, by simpa using h.symm, ?_⟩
    rcases key.acquire_cases rate rate 1 now with ⟨hlt, -⟩ | ⟨-, ⟨-, hstep⟩ | ⟨hfound, -⟩⟩
    · exact absurd hpaused hlt.not_ge
    · rw [Op.call, hstep]
    · exact absurd hshort hfound.not_gt
  · simp at h

/-- The hint is long enough: at the rate of the calls a whole token is there by then. -/
theorem one_le_refilled {tokens : ℚ} (hrate : 1 ≤ rate)
    (ht : now + (⌈(1 - tokens) / rate * 1000⌉ : ℚ) / 1000 ≤ t) :
    1 ≤ (key.write tokens now).hash.refilled rate rate t := by
  have hpos : 0 < rate := by linarith
  have hceil := Int.le_ceil ((1 - tokens) / rate * 1000)
  have hwait : (1 - tokens) / rate ≤ t - now := by linarith
  have hgain : 1 - tokens ≤ (t - now) * rate := (div_le_iff₀ hpos).mp hwait
  have helapsed : (t - now) * rate ≤ max 0 (t - now) * rate := by
    gcongr
    exact le_max_right ..
  rw [Hash.refilled, Key.level_write, Option.getD_some]
  exact le_min hrate (by linarith)

end BatchInference
