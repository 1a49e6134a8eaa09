import Mathlib.Data.Int.Log
import Mathlib.Data.Rat.Floor
import Mathlib.Algebra.Order.Field.Power
import Mathlib.Tactic.Linarith
import Mathlib.Tactic.FieldSimp
import Mathlib.Tactic.Positivity

/-!
# Rounding to a fixed number of significant bits

`roundSig p x` is the rational with a significand of `p` bits that is nearest to `x`, ties
to the even significand; the exponent is not bounded. Two facts are enough for its users:
the relative error is at most `2 ^ (-p)`, and an integer below `2 ^ p` is its own rounding.
They give `ceil_roundSig_div`: the ceiling of a rounded integer quotient is the exact one
while the dividend stays below `2 ^ p`. `Rounds` says the two of doubles, whatever the
rounding is. `roundDecimal` rounds a double to decimal places.
-/

namespace Rounding

/-- The integer nearest to `x`, the even one of two. -/
def roundHalfEven (x : ℚ) : ℤ :=
  if x - ⌊x⌋ < 1 / 2 then ⌊x⌋
  else if 1 / 2 < x - ⌊x⌋ then ⌊x⌋ + 1
  else if ⌊x⌋ % 2 = 0 then ⌊x⌋ else ⌊x⌋ + 1

theorem abs_roundHalfEven_sub (x : ℚ) : |(roundHalfEven x : ℚ) - x| ≤ 1 / 2 := by
  have lo := Int.floor_le x
  have hi := Int.lt_floor_add_one x
  unfold roundHalfEven
  split_ifs <;> push_cast <;> rw [abs_le] <;> constructor <;> linarith

@[simp] theorem roundHalfEven_intCast (n : ℤ) : roundHalfEven n = n := by
  simp [roundHalfEven]

theorem roundHalfEven_le {x : ℚ} {n : ℤ} (h : x ≤ n) : roundHalfEven x ≤ n := by
  have hhalf := (abs_le.mp (abs_roundHalfEven_sub x)).2
  have hlt : (roundHalfEven x : ℚ) < (n + 1 : ℤ) := by
    push_cast
    linarith
  exact Int.lt_add_one_iff.mp (by exact_mod_cast hlt)

theorem le_roundHalfEven {x : ℚ} {n : ℤ} (h : n ≤ x) : n ≤ roundHalfEven x := by
  have hhalf := (abs_le.mp (abs_roundHalfEven_sub x)).1
  have hlt : (n : ℚ) < (roundHalfEven x + 1 : ℤ) := by
    push_cast
    linarith
  exact Int.lt_add_one_iff.mp (by exact_mod_cast hlt)

/-- The weight of the last significand bit of `x`. -/
def ulp (p : ℕ) (x : ℚ) : ℚ := 2 ^ (Int.log 2 x - (p - 1))

def roundSig (p : ℕ) (x : ℚ) : ℚ := roundHalfEven (x / ulp p x) * ulp p x

theorem ulp_pos (p : ℕ) (x : ℚ) : 0 < ulp p x := by
  unfold ulp; positivity

theorem ulp_le {p : ℕ} {x : ℚ} (hx : 0 < x) : ulp p x ≤ x / 2 ^ ((p : ℤ) - 1) := by
  have h : (2 : ℚ) ^ Int.log 2 x ≤ x := Int.zpow_log_le_self (by norm_num) hx
  rw [ulp, zpow_sub₀ (by norm_num)]
  gcongr

/-- The significand of `x`. -/
theorem div_ulp_lt (p : ℕ) (x : ℚ) : x / ulp p x < 2 ^ p := by
  have hlog := Int.lt_zpow_succ_log_self (b := 2) (by norm_num) x
  rw [div_lt_iff₀ (ulp_pos p x), ulp, ← zpow_natCast, ← zpow_add₀ (by norm_num)]
  push_cast at hlog
  convert hlog using 2
  ring

theorem abs_roundSig_sub_le {p : ℕ} {x : ℚ} (hx : 0 < x) :
    |roundSig p x - x| ≤ x / 2 ^ p := by
  have hu := ulp_pos p x
  have scaled : roundSig p x - x = (roundHalfEven (x / ulp p x) - x / ulp p x) * ulp p x := by
    rw [roundSig, sub_mul, div_mul_cancel₀ _ hu.ne']
  calc |roundSig p x - x|
      = |(roundHalfEven (x / ulp p x) : ℚ) - x / ulp p x| * ulp p x := by
        rw [scaled, abs_mul, abs_of_pos hu]
    _ ≤ 1 / 2 * (x / 2 ^ ((p : ℤ) - 1)) := by
        gcongr
        · exact abs_roundHalfEven_sub _
        · exact ulp_le hx
    _ = x / 2 ^ p := by
        rw [zpow_sub₀ (by norm_num), zpow_one, zpow_natCast]
        field_simp

theorem roundSig_natCast {p n : ℕ} (hn : 0 < n) (hp : n < 2 ^ p) : roundSig p n = n := by
  -- the significand of an integer below `2 ^ p` is an integer: nothing is rounded away
  have hlog : Int.log 2 (n : ℚ) ≤ (p : ℤ) - 1 := by
    rw [Int.log_natCast]
    have := (Nat.log_lt_iff_lt_pow (by norm_num) hn.ne').mpr hp
    omega
  obtain ⟨k, hk⟩ := Int.eq_ofNat_of_zero_le (sub_nonneg.mpr hlog)
  have hulp : ulp p (n : ℚ) = ((2 ^ k : ℕ) : ℚ)⁻¹ := by
    rw [ulp, show Int.log 2 (n : ℚ) - ((p : ℤ) - 1) = -(k : ℤ) by omega, zpow_neg, zpow_natCast]
    push_cast; rfl
  have hint : (n : ℚ) / ulp p (n : ℚ) = ((n * 2 ^ k : ℕ) : ℤ) := by
    rw [hulp]; push_cast; field_simp
  rw [roundSig, hint, roundHalfEven_intCast, ← hint, div_mul_cancel₀ _ (ulp_pos p _).ne']

/-- A quotient that is rounded with a relative error of `2 ^ (-p)`, and not at all if it is an
integer, has the ceiling of the exact one while the dividend stays below `2 ^ p`. -/
theorem ceil_eq_of_abs_sub_le {p a b : ℕ} {r : ℚ} (ha : 0 < a) (hp : a < 2 ^ p) (hb : 0 < b)
    (exact_natCast : ∀ n : ℕ, 0 < n → n < 2 ^ p → (a : ℚ) / b = n → r = n)
    (error_le : |r - a / b| ≤ a / b / 2 ^ p) : ⌈r⌉ = ((a + b - 1) / b : ℕ) := by
  have hb' : (0 : ℚ) < b := by exact_mod_cast hb
  obtain ⟨lower, upper⟩ : ((a + b - 1) / b - 1) * b < a ∧ a ≤ (a + b - 1) / b * b := by
    have := Nat.div_add_mod (a + b - 1) b
    have := Nat.mod_lt (a + b - 1) hb
    rw [Nat.sub_mul, Nat.mul_comm]
    constructor <;> omega
  have one_le : 1 ≤ (a + b - 1) / b := (Nat.one_le_div_iff hb).mpr (by omega)
  generalize (a + b - 1) / b = c at lower upper one_le
  rcases Nat.eq_or_lt_of_le upper with exact_div | inexact
  · have quotient : (a : ℚ) / b = (c : ℕ) := by rw [exact_div]; push_cast; field_simp
    have small : c < 2 ^ p := lt_of_le_of_lt (by nlinarith) hp
    rw [exact_natCast c one_le small quotient]
    simp
  · have error : |r - a / b| < 1 / b := by
      have ha' : (a : ℚ) < 2 ^ p := by exact_mod_cast hp
      refine error_le.trans_lt ?_
      rw [div_div, div_lt_div_iff₀ (by positivity) hb']
      nlinarith
    obtain ⟨below, above⟩ := abs_lt.mp error
    have left : (c : ℚ) - 1 + 1 / b ≤ (a : ℚ) / b := by
      have : ((c : ℚ) - 1) * b + 1 ≤ a := by
        have : (c - 1) * b + 1 ≤ a := lower
        have h := (Nat.cast_le (α := ℚ)).mpr this
        push_cast [Nat.cast_sub one_le] at h
        exact h
      rw [le_div_iff₀ hb']
      field_simp
      linarith
    have right : (a : ℚ) / b ≤ (c : ℚ) - 1 / b := by
      have : (a : ℚ) + 1 ≤ c * b := by exact_mod_cast inexact
      rw [div_le_iff₀ hb']
      field_simp
      linarith
    rw [Int.ceil_eq_iff]
    push_cast
    constructor <;> linarith

/-- Rounding a quotient does not move its ceiling while the dividend fits the significand. -/
theorem ceil_roundSig_div {p a b : ℕ} (ha : 0 < a) (hp : a < 2 ^ p) (hb : 0 < b) :
    ⌈roundSig p ((a : ℚ) / b)⌉ = ((a + b - 1) / b : ℕ) := by
  refine ceil_eq_of_abs_sub_le ha hp hb (fun n hn hlt hq => ?_) (abs_roundSig_sub_le ?_)
  · rw [hq, roundSig_natCast hn hlt]
  · positivity

/-! ## Doubles -/

theorem log_mul_zpow {x : ℚ} (hx : 0 < x) (e : ℤ) : Int.log 2 (x * 2 ^ e) = Int.log 2 x + e := by
  have hscaled : 0 < x * 2 ^ e := by positivity
  refine le_antisymm (Int.lt_add_one_iff.mp ?_) ?_
  · rw [← Int.lt_zpow_iff_log_lt (by norm_num) hscaled, add_right_comm]
    have := Int.lt_zpow_succ_log_self (b := 2) (by norm_num) x
    push_cast at this ⊢
    rw [zpow_add₀ (by norm_num)]
    gcongr
  · rw [← Int.zpow_le_iff_le_log (by norm_num) hscaled]
    have := Int.zpow_log_le_self (b := 2) (by norm_num) hx
    push_cast at this ⊢
    rw [zpow_add₀ (by norm_num)]
    gcongr

/-- Scaling by a power of 2 rounds nothing away. -/
theorem roundSig_mul_zpow (p : ℕ) {x : ℚ} (hx : 0 < x) (e : ℤ) :
    roundSig p (x * 2 ^ e) = roundSig p x * 2 ^ e := by
  have hulp : ulp p (x * 2 ^ e) = ulp p x * 2 ^ e := by
    rw [ulp, ulp, log_mul_zpow hx, ← zpow_add₀ (by norm_num)]
    ring_nf
  rw [roundSig, roundSig, hulp, mul_div_mul_right _ _ (by positivity), mul_assoc]

/-- The finite doubles, subnormal ones included. -/
def IsDouble (x : ℚ) : Prop :=
  ∃ m e : ℤ, |m| < 2 ^ 53 ∧ -1074 ≤ e ∧ e ≤ 971 ∧ x = m * 2 ^ e

/-- `r` is `x` if that is a double, and it is never off by more than `2 ^ (-53)` of `x`. -/
structure Rounds (x r : ℚ) : Prop where
  exact : IsDouble x → r = x
  error_le : |r - x| ≤ |x| / 2 ^ 53

/-- No double is nearer to `x` than `r`. -/
structure IsNearest (x r : ℚ) : Prop where
  isDouble : IsDouble r
  le : ∀ y, IsDouble y → |r - x| ≤ |y - x|

theorem isDouble_natCast {n : ℕ} (hn : n < 2 ^ 53) : IsDouble n := by
  refine ⟨n, 0, ?_, by norm_num, by norm_num, by simp⟩
  rw [abs_of_nonneg n.cast_nonneg]
  exact_mod_cast hn

theorem Rounds.ceil_div {a b : ℕ} {r : ℚ} (h : Rounds (a / b) r) (ha : 0 < a)
    (hlt : a < 2 ^ 53) (hb : 0 < b) : ⌈r⌉ = ((a + b - 1) / b : ℕ) := by
  have herror := h.error_le
  rw [abs_of_nonneg (a := (a : ℚ) / b) (by positivity)] at herror
  refine ceil_eq_of_abs_sub_le ha hlt hb (fun n _ hn hq => ?_) herror
  rw [h.exact (hq ▸ isDouble_natCast hn), hq]

theorem rounds_roundSig {x : ℚ} (hx : 0 < x) : Rounds x (roundSig 53 x) where
  exact := by
    rintro ⟨m, e, hm, -, -, rfl⟩
    have hpos : (0 : ℚ) < m := pos_of_mul_pos_left hx (by positivity)
    obtain ⟨n, rfl⟩ := Int.eq_ofNat_of_zero_le (Int.cast_pos.mp hpos).le
    rw [abs_of_nonneg n.cast_nonneg] at hm
    rw [roundSig_mul_zpow 53 hpos, Int.cast_natCast,
      roundSig_natCast (by exact_mod_cast hpos) (by exact_mod_cast hm)]
  error_le := by
    rw [abs_of_pos hx]
    exact abs_roundSig_sub_le hx

theorem isDouble_roundSig {x : ℚ} (lo : 2 ^ (-1022 : ℤ) ≤ x) (hi : x < 2 ^ (53 : ℤ)) :
    IsDouble (roundSig 53 x) := by
  have hx : 0 < x := lt_of_lt_of_le (by positivity) lo
  have hmin : -1022 ≤ Int.log 2 x :=
    (Int.zpow_le_iff_le_log (by norm_num) hx).mp (by exact_mod_cast lo)
  have hmax : Int.log 2 x < 53 :=
    (Int.lt_zpow_iff_log_lt (by norm_num) hx).mp (by exact_mod_cast hi)
  have hnonneg : 0 ≤ roundHalfEven (x / ulp 53 x) := by
    have := ulp_pos 53 x
    exact le_roundHalfEven (by push_cast; positivity)
  have hle : roundHalfEven (x / ulp 53 x) ≤ 2 ^ 53 :=
    roundHalfEven_le (by push_cast; exact (div_ulp_lt 53 x).le)
  rcases hle.lt_or_eq with hlt | heq
  · refine ⟨_, Int.log 2 x - 52, by rwa [abs_of_nonneg hnonneg], by omega, by omega, ?_⟩
    rw [roundSig, ulp]
    norm_num
  · -- the significand has been rounded up to the next power of 2
    refine ⟨2 ^ 52, Int.log 2 x - 51, by norm_num, by omega, by omega, ?_⟩
    have hnext : Int.log 2 x - 51 = Int.log 2 x - ((53 : ℕ) - 1) + 1 := by
      push_cast
      ring
    rw [roundSig, heq, ulp, hnext, zpow_add_one₀ (by norm_num)]
    push_cast
    ring

/-- The nearest double is as close as it should be, as long as it is not subnormal. -/
theorem IsNearest.rounds {x r : ℚ} (h : IsNearest x r) (lo : 2 ^ (-1022 : ℤ) ≤ x)
    (hi : x < 2 ^ (53 : ℤ)) : Rounds x r where
  exact hx := by
    have := h.le x hx
    rwa [sub_self, abs_zero, abs_nonpos_iff, sub_eq_zero] at this
  error_le := by
    have hx : 0 < x := lt_of_lt_of_le (by positivity) lo
    exact (h.le _ (isDouble_roundSig lo hi)).trans (rounds_roundSig hx).error_le

/-! ## Decimal places -/

/-- `round(x, n)` on doubles: the nearest decimal of `n` places, and the double nearest to it. -/
def roundDecimal (n : ℕ) (x : ℚ) : ℚ := roundSig 53 (roundHalfEven (x * 10 ^ n) / 10 ^ n)

/-- An even integer also gets what lies half a unit below it. -/
theorem le_roundHalfEven_iff {x : ℚ} {n : ℤ} (hn : n % 2 = 0) :
    n ≤ roundHalfEven x ↔ (n : ℚ) - 1 / 2 ≤ x := by
  constructor
  · intro h
    have hhalf := (abs_le.mp (abs_roundHalfEven_sub x)).2
    have hle : (n : ℚ) ≤ roundHalfEven x := by exact_mod_cast h
    linarith
  · intro h
    rcases le_or_gt (n : ℚ) x with hle | hlt
    · exact le_roundHalfEven hle
    · have hfloor : ⌊x⌋ = n - 1 :=
        Int.floor_eq_iff.mpr ⟨by push_cast; linarith, by simpa using hlt⟩
      unfold roundHalfEven
      rw [hfloor]
      push_cast
      split_ifs with hbelow habove heven
      · linarith
      · omega
      · omega
      · omega

@[simp] theorem roundSig_zero (p : ℕ) : roundSig p 0 = 0 := by
  simp [roundSig, roundHalfEven]

theorem roundSig_nonneg (p : ℕ) {x : ℚ} (hx : 0 ≤ x) : 0 ≤ roundSig p x := by
  have hu := ulp_pos p x
  have hsig : 0 ≤ roundHalfEven (x / ulp p x) := le_roundHalfEven (by push_cast; positivity)
  exact mul_nonneg (by exact_mod_cast hsig) hu.le

theorem roundSig_le_one {p : ℕ} (hp : 0 < p) {x : ℚ} (hx : 0 ≤ x) (hle : x ≤ 1) :
    roundSig p x ≤ 1 := by
  rcases hle.eq_or_lt with rfl | hlt
  · exact_mod_cast (roundSig_natCast one_pos (Nat.one_lt_two_pow hp.ne')).le
  · rcases hx.eq_or_lt with rfl | hpos
    · simp
    · have hlog : Int.log 2 x < 0 :=
        (Int.lt_zpow_iff_log_lt (by norm_num) hpos).mp (by simpa using hlt)
      have hsig : roundHalfEven (x / ulp p x) ≤ 2 ^ p :=
        roundHalfEven_le (by push_cast; exact (div_ulp_lt p x).le)
      calc roundSig p x ≤ 2 ^ p * ulp p x := by
            rw [roundSig]
            exact mul_le_mul_of_nonneg_right (by exact_mod_cast hsig) (ulp_pos p x).le
        _ = 2 ^ (Int.log 2 x + 1) := by
            rw [ulp, ← zpow_natCast, ← zpow_add₀ (by norm_num)]
            ring_nf
        _ ≤ 2 ^ (0 : ℤ) := zpow_le_zpow_right₀ (by norm_num) (by omega)
        _ = 1 := zpow_zero 2

theorem roundDecimal_nonneg (n : ℕ) {x : ℚ} (hx : 0 ≤ x) : 0 ≤ roundDecimal n x := by
  have hdecimal : 0 ≤ roundHalfEven (x * 10 ^ n) :=
    le_roundHalfEven (by push_cast; positivity)
  exact roundSig_nonneg 53 (div_nonneg (by exact_mod_cast hdecimal) (by positivity))

/-- Between 0 and 1, what is rounded to 1 is no more than half a place below it. -/
theorem roundDecimal_unit {n : ℕ} (hn : 0 < n) (hlt : 10 ^ n < 2 ^ 53) {x : ℚ} (hx : 0 ≤ x)
    (hle : x ≤ 1) : roundDecimal n x ≤ 1 ∧
      (roundDecimal n x = 1 ↔ (10 : ℚ) ^ n - 1 / 2 ≤ x * 10 ^ n) := by
  have hplaces : (0 : ℚ) < 10 ^ n := by positivity
  have heven : ((10 ^ n : ℕ) : ℤ) % 2 = 0 := by
    obtain ⟨k, rfl⟩ := Nat.exists_eq_succ_of_ne_zero hn.ne'
    push_cast
    omega
  have hlow : 0 ≤ roundHalfEven (x * 10 ^ n) := le_roundHalfEven (by push_cast; positivity)
  have hhigh : roundHalfEven (x * 10 ^ n) ≤ ((10 ^ n : ℕ) : ℤ) :=
    roundHalfEven_le (by push_cast; nlinarith)
  have hiff := le_roundHalfEven_iff (x := x * 10 ^ n) heven
  unfold roundDecimal
  generalize roundHalfEven (x * 10 ^ n) = m at hlow hhigh hiff
  have hm : (0 : ℚ) ≤ m / 10 ^ n := div_nonneg (by exact_mod_cast hlow) hplaces.le
  have hm' : (m : ℚ) / 10 ^ n ≤ 1 := (div_le_one hplaces).mpr (by exact_mod_cast hhigh)
  refine ⟨roundSig_le_one (by norm_num) hm hm', ?_⟩
  push_cast at hiff
  rw [← hiff]
  constructor
  · intro hone
    by_contra hshort
    have hbelow : (m : ℚ) / 10 ^ n ≤ 1 - 1 / 10 ^ n := by
      have hpred : (m : ℚ) ≤ 10 ^ n - 1 := by
        exact_mod_cast Int.le_sub_one_of_lt (not_le.mp hshort)
      rw [div_le_iff₀ hplaces]
      field_simp
      linarith
    have hsmall : (1 : ℚ) / 2 ^ 53 < 1 / 10 ^ n := by
      gcongr
      exact_mod_cast hlt
    rcases hm.eq_or_lt with hzero | hpos
    · rw [← hzero, roundSig_zero] at hone
      exact absurd hone (by norm_num)
    · have herror := (abs_le.mp (abs_roundSig_sub_le (p := 53) hpos)).2
      rw [hone] at herror
      have : (m : ℚ) / 10 ^ n / 2 ^ 53 ≤ 1 / 2 ^ 53 := by gcongr
      linarith
  · intro hfull
    have heq : m = 10 ^ n := le_antisymm (by exact_mod_cast hhigh) hfull
    have hunit : (m : ℚ) / 10 ^ n = (1 : ℕ) := by
      rw [heq]
      push_cast
      exact div_self hplaces.ne'
    rw [hunit, roundSig_natCast one_pos (by norm_num)]
    rfl
end Rounding
