import BatchInference.RateLimit.Windows
import Mathlib.Algebra.Order.Archimedean.Basic
import Mathlib.Algebra.Order.Floor.Semiring

/-!
# Batches on one bucket

Batches with the same provider, model and API key share a bucket, and each of them calls
with its own `rate_limit_rps`. A refused call has refilled the bucket too, at its own rate:
what is granted to a batch stays within the rate of this batch only if no other batch on the
bucket has a larger one.
-/

namespace BatchInference

open Machine

variable {β : Type*} {rates : β → ℚ} {a b : β}

/-- A call on behalf of a batch, at a time. -/
def callStep (rates : β → ℚ) (key : Key) (call : β × ℚ) : Key × Bool :=
  key.step (.call (rates call.1) call.2)

/-! ## A faster batch on the bucket -/

theorem callStep_holding {tokens t u : ℚ} (ht : 0 ≤ t) (hle : t ≤ u) (b : β) :
    let found := min (rates b) (tokens + (u - t) * rates b)
    callStep rates (.holding tokens t) (b, u) =
      if found < 1 then (.holding found u, false) else (.holding (found - 1) u, true) := by
  have helapsed : max 0 (u - t) = u - t := max_eq_right (by linarith)
  rw [callStep, Op.call, Key.step_holding (ht.trans hle), helapsed]

theorem callStep_fresh (b : β) :
    callStep rates {} (b, 0) = callStep rates (.holding (rates b) 0) (b, 0) :=
  Key.step_fresh le_rfl

/-- In half of its own interval `a` refills half a token, and `b` the other half. -/
def period (rates : β → ℚ) (a b : β) : ℚ := 1 / (2 * rates a) + 1 / (2 * rates b)

def cycle (rates : β → ℚ) (a b : β) (t : ℚ) : List (β × ℚ) :=
  [(a, t + 1 / (2 * rates a)), (b, t + period rates a b)]

def cycles (rates : β → ℚ) (a b : β) (t : ℚ) : ℕ → List (β × ℚ)
  | 0 => []
  | n + 1 => cycles rates a b t n ++ cycle rates a b (t + n * period rates a b)

theorem period_nonneg (hpos : ∀ a, 0 < rates a) : 0 ≤ period rates a b := by
  have := hpos a
  have := hpos b
  unfold period
  positivity

/-- The call of `a` is refused with half a token, and the call of `b` takes a whole one. -/
theorem run_cycle (hpos : ∀ a, 0 < rates a) (ha : 1 < rates a) (hb : 1 ≤ rates b) {t : ℚ}
    (ht : 0 ≤ t) :
    after (callStep rates) (.holding 0 t) (cycle rates a b t) =
        .holding 0 (t + period rates a b) ∧
      trace (callStep rates) (.holding 0 t) (cycle rates a b t) =
        [((a, t + 1 / (2 * rates a)), false), ((b, t + period rates a b), true)] := by
  have hrefused : callStep rates (.holding 0 t) (a, t + 1 / (2 * rates a)) =
      (.holding (1 / 2) (t + 1 / (2 * rates a)), false) := by
    have hhalf : 0 < 1 / (2 * rates a) := by
      have := hpos a
      positivity
    have hgain : (t + 1 / (2 * rates a) - t) * rates a = 1 / 2 := by
      have := (hpos a).ne'
      field_simp
      ring
    have hfound : min (rates a) (1 / 2) = 1 / 2 := min_eq_right (by linarith)
    rw [callStep_holding ht (by linarith), hgain, zero_add, hfound, if_pos (by norm_num)]
  have hgranted : callStep rates (.holding (1 / 2) (t + 1 / (2 * rates a)))
      (b, t + period rates a b) = (.holding 0 (t + period rates a b), true) := by
    have hhalf : 0 < 1 / (2 * rates b) := by
      have := hpos b
      positivity
    have hstart : 0 ≤ t + 1 / (2 * rates a) := by
      have := hpos a
      positivity
    have hgain : 1 / 2 + (t + period rates a b - (t + 1 / (2 * rates a))) * rates b = 1 := by
      have := (hpos b).ne'
      rw [period, add_sub_add_left_eq_sub, add_sub_cancel_left]
      field_simp
      ring
    rw [callStep_holding hstart (by rw [period]; linarith), hgain, min_eq_right hb,
      if_neg (lt_irrefl _), sub_self]
  simp only [cycle, after_cons, after_nil, trace_cons, trace_nil, hrefused, hgranted, and_self]

theorem after_cycles (hpos : ∀ a, 0 < rates a) (ha : 1 < rates a) (hb : 1 ≤ rates b) {t : ℚ}
    (ht : 0 ≤ t) (n : ℕ) :
    after (callStep rates) (.holding 0 t) (cycles rates a b t n) =
      .holding 0 (t + n * period rates a b) := by
  induction n with
  | zero => simp [cycles]
  | succ n ih =>
    have hperiod := period_nonneg (a := a) (b := b) hpos
    rw [cycles, after_append, ih, (run_cycle hpos ha hb (by positivity)).1]
    push_cast
    congr 1
    ring

theorem length_cycles (rates : β → ℚ) (a b : β) (t : ℚ) (n : ℕ) :
    (cycles rates a b t n).length = 2 * n := by
  induction n with
  | zero => rfl
  | succ n ih =>
    simp only [cycles, cycle, List.length_append, ih, List.length_cons, List.length_nil]
    omega

theorem last_cycles (t : ℚ) (n : ℕ) :
    ((b, t) :: cycles rates a b t n)[2 * n]? = some (b, t + n * period rates a b) := by
  cases n with
  | zero => simp [cycles]
  | succ n =>
    have hpos : 2 * (n + 1) = 2 * n + 1 + 1 := by omega
    have hlength := length_cycles rates a b t n
    rw [hpos, List.getElem?_cons_succ, cycles, List.getElem?_append_right (by omega), hlength]
    simp [cycle, add_mul, add_assoc]

theorem sorted_cycles (hpos : ∀ a, 0 < rates a) (t : ℚ) (n : ℕ) :
    (cycles rates a b t n).Pairwise (fun c d => c.2 ≤ d.2) ∧
      ∀ c ∈ cycles rates a b t n, t ≤ c.2 ∧ c.2 ≤ t + n * period rates a b := by
  induction n with
  | zero => simp [cycles]
  | succ n ih =>
    obtain ⟨hsorted, hbounds⟩ := ih
    have hperiod := period_nonneg (a := a) (b := b) hpos
    have hsofar : 0 ≤ n * period rates a b := by positivity
    have ha : 0 ≤ 1 / (2 * rates a) := by
      have := hpos a
      positivity
    have hle : 1 / (2 * rates a) ≤ period rates a b := by
      have := hpos b
      have : 0 ≤ 1 / (2 * rates b) := by positivity
      rw [period]
      linarith
    have hcycle : ∀ c ∈ cycle rates a b (t + n * period rates a b),
        t + n * period rates a b ≤ c.2 ∧ c.2 ≤ t + (n + 1) * period rates a b := by
      simp only [cycle, List.mem_cons, List.not_mem_nil, or_false, forall_eq_or_imp, forall_eq]
      constructor <;> constructor <;> linarith
    rw [cycles, List.pairwise_append]
    refine ⟨⟨hsorted, ?_, fun c hc d hd => (hbounds c hc).2.trans (hcycle d hd).1⟩, ?_⟩
    · simpa [cycle] using hle
    · intro c hc
      push_cast
      rcases List.mem_append.mp hc with hc | hc
      · have := hbounds c hc
        constructor <;> linarith
      · have := hcycle c hc
        constructor <;> linarith

/-- A burst at the start takes the tokens of the fresh key. -/
theorem after_burst {k : ℕ} (hk : (k : ℚ) + 1 ≤ rates b) :
    after (callStep rates) {} (List.replicate (k + 1) (b, 0)) = .holding (rates b - (k + 1)) 0 := by
  induction k with
  | zero =>
    have hfull : ¬ rates b < 1 := by simpa using hk
    simp [callStep_fresh, callStep_holding, hfull]
  | succ k ih =>
    push_cast at hk
    have hnext : min (rates b) (rates b - (k + 1) + (0 - 0) * rates b) = rates b - (k + 1) := by
      rw [sub_self, zero_mul, add_zero]
      exact min_eq_right (by linarith [(Nat.cast_nonneg k : (0 : ℚ) ≤ k)])
    rw [List.replicate_succ', after_append, ih (by linarith), after_cons,
      callStep_holding le_rfl le_rfl, hnext, if_neg (by linarith)]
    push_cast
    simp only [after_nil]
    congr 1
    ring

/-- After a burst of `k + 1`, `b` has its next token at this time. -/
def nextToken (rates : β → ℚ) (b : β) (k : ℕ) : ℚ := (1 - (rates b - (k + 1))) / rates b

/-- A burst of `b`, its next token, and then `n` cycles. -/
def overdraw (rates : β → ℚ) (a b : β) (k n : ℕ) : List (β × ℚ) :=
  List.replicate (k + 1) (b, 0) ++
    (b, nextToken rates b k) :: cycles rates a b (nextToken rates b k) n

theorem nextToken_nonneg {k : ℕ} (hpos : 0 < rates b) (hrest : rates b < k + 1 + 1) :
    0 ≤ nextToken rates b k :=
  div_nonneg (by linarith) hpos.le

theorem callStep_nextToken {k : ℕ} (hb : 1 ≤ rates b) (hrest : rates b < k + 1 + 1) :
    callStep rates (.holding (rates b - (k + 1)) 0) (b, nextToken rates b k) =
      (.holding 0 (nextToken rates b k), true) := by
  have hpos : 0 < rates b := by linarith
  have hgain : rates b - (k + 1) + (nextToken rates b k - 0) * rates b = 1 := by
    rw [nextToken, sub_zero, div_mul_cancel₀ _ hpos.ne']
    ring
  rw [callStep_holding le_rfl (nextToken_nonneg hpos hrest), hgain, min_eq_right hb,
    if_neg (lt_irrefl _), sub_self]

theorem sorted_overdraw {k : ℕ} (hpos : ∀ a, 0 < rates a) (hrest : rates b < k + 1 + 1)
    (n : ℕ) : (overdraw rates a b k n).Pairwise fun c d => c.2 ≤ d.2 := by
  obtain ⟨hsorted, hbounds⟩ :=
    sorted_cycles (a := a) (b := b) hpos (nextToken rates b k) n
  have hnext := nextToken_nonneg (hpos b) hrest
  rw [overdraw, List.pairwise_append, List.pairwise_replicate, List.pairwise_cons]
  refine ⟨.inr le_rfl, ⟨fun c hc => (hbounds c hc).1, hsorted⟩, fun c hc d hd => ?_⟩
  obtain rfl := List.eq_of_mem_replicate hc
  rcases List.mem_cons.mp hd with rfl | hd
  · exact hnext
  · exact hnext.trans (hbounds d hd).1

/-! ## The grants to a batch -/

variable [DecidableEq β]

/-- What is granted to `b`. -/
def grantsTo (b : β) (calls : List ((β × ℚ) × Bool)) : ℕ :=
  calls.countP fun p => p.1.1 = b ∧ p.2

theorem grantsTo_cons (p : (β × ℚ) × Bool) (calls : List ((β × ℚ) × Bool)) :
    grantsTo b (p :: calls) = grantsTo b calls + if p.1.1 = b ∧ p.2 then 1 else 0 := by
  simp [grantsTo, List.countP_cons]

theorem grantsTo_append (calls calls' : List ((β × ℚ) × Bool)) :
    grantsTo b (calls ++ calls') = grantsTo b calls + grantsTo b calls' := List.countP_append

/-- In any window of any calls on the bucket, the grants to `b` stay within its own rate. -/
def RateKept (rates : β → ℚ) (b : β) : Prop :=
  ∀ calls : List (β × ℚ), calls.Pairwise (fun c d => c.2 ≤ d.2) →
    ∀ {i j : ℕ} (_ : i ≤ j) (hj : j < calls.length),
      (grantsTo b (window i (j + 1) (trace (callStep rates) {} calls)) : ℚ) ≤
        rates b + rates b * (calls[j].2 - calls[i].2)

theorem rateKept_of_le (hpos : ∀ a, 0 < rates a) (hle : ∀ a, rates a ≤ rates b) :
    RateKept rates b := by
  intro calls hsorted i j hij hj
  have hops : (calls.map fun c => Op.call (rates c.1) c.2).Pairwise
      fun a b => a.now ≤ b.now := by
    simpa [List.pairwise_map] using hsorted
  have hbound := countP_window_le hops
    (List.forall_mem_map.mpr fun c _ => (Op.paid_call ..).mpr (hpos c.1)) hij
    (by simpa using hj) (hpos b).le fun op hop => by
      obtain ⟨k, hk, -, -, rfl⟩ := mem_window hop
      simpa using hle _
  rw [trace_map, window_map, List.countP_map] at hbound
  simp only [List.getElem_map, Op.now_call] at hbound
  have hfewer : grantsTo b (window i (j + 1) (trace (callStep rates) {} calls)) ≤
      (window i (j + 1) (trace (callStep rates) {} calls)).countP (·.2) :=
    List.countP_mono_left fun _ _ h => by simpa using (of_decide_eq_true h).2
  exact (Nat.cast_le.mpr hfewer).trans hbound

theorem grantsTo_cycles (hpos : ∀ a, 0 < rates a) (ha : 1 < rates a) (hb : 1 ≤ rates b)
    (hab : a ≠ b) {t : ℚ} (ht : 0 ≤ t) (n : ℕ) :
    grantsTo b (trace (callStep rates) (.holding 0 t) (cycles rates a b t n)) = n := by
  induction n with
  | zero => rfl
  | succ n ih =>
    have hperiod := period_nonneg (a := a) (b := b) hpos
    rw [cycles, trace_append, after_cycles hpos ha hb ht,
      (run_cycle hpos ha hb (by positivity)).2, grantsTo_append, ih]
    simp [hab, grantsTo]

theorem grantsTo_overdraw {k : ℕ} (hpos : ∀ a, 0 < rates a) (hb : 1 ≤ rates b)
    (hlt : rates b < rates a) (hfloor : (k : ℚ) + 1 ≤ rates b) (hrest : rates b < k + 1 + 1)
    (n : ℕ) : grantsTo b (window (k + 1) (k + 1 + 2 * n + 1)
      (trace (callStep rates) {} (overdraw rates a b k n))) = n + 1 := by
  have hab : a ≠ b := fun h => hlt.ne (h ▸ rfl)
  have hnext := nextToken_nonneg (hpos b) hrest
  have hlength : (overdraw rates a b k n).length = k + 1 + 2 * n + 1 := by
    simp [overdraw, length_cycles]
    omega
  rw [window, List.take_of_length_le (by simp [hlength]), overdraw, trace_append,
    List.drop_left' (by simp), after_burst hfloor, trace_cons, callStep_nextToken hb hrest,
    grantsTo_cons, grantsTo_cycles hpos (by linarith) hb hab hnext n]
  simp

/-- With a faster batch on the bucket, `b` is granted a token in each period. -/
theorem not_rateKept (hpos : ∀ a, 0 < rates a) (hb : 1 ≤ rates b) (hlt : rates b < rates a) :
    ¬ RateKept rates b := by
  intro hkept
  obtain ⟨k, hk⟩ := Nat.exists_eq_succ_of_ne_zero (Nat.floor_pos.mpr hb).ne'
  have hfloor : (k : ℚ) + 1 ≤ rates b := by
    exact_mod_cast hk ▸ Nat.floor_le (hpos b).le
  have hrest : rates b < k + 1 + 1 := by
    exact_mod_cast hk ▸ Nat.lt_floor_add_one (rates b)
  have hslow : rates b * period rates a b < 1 := by
    have hhalf : rates b * (1 / (2 * rates b)) = 1 / 2 := by
      have := (hpos b).ne'
      field_simp
    have hless : rates b * (1 / (2 * rates a)) < 1 / 2 := by
      have := hpos a
      rw [mul_one_div, div_lt_div_iff₀ (by positivity) (by norm_num)]
      linarith
    rw [period, mul_add]
    linarith
  obtain ⟨n, hn⟩ := exists_nat_gt (rates b / (1 - rates b * period rates a b))
  rw [div_lt_iff₀ (by linarith)] at hn
  have hlength : (overdraw rates a b k n).length = k + 1 + 2 * n + 1 := by
    simp [overdraw, length_cycles]
    omega
  have hbound := hkept _ (sorted_overdraw (a := a) hpos hrest n) (i := k + 1)
    (j := k + 1 + 2 * n) (by omega) (by omega)
  have hfirst : (overdraw rates a b k n)[k + 1]? = some (b, nextToken rates b k) := by
    simp [overdraw]
  have hlast : (overdraw rates a b k n)[k + 1 + 2 * n]? =
      some (b, nextToken rates b k + n * period rates a b) := by
    rw [overdraw, List.getElem?_append_right (by simp), List.length_replicate,
      Nat.add_sub_cancel_left, last_cycles]
  rw [grantsTo_overdraw hpos hb hlt hfloor hrest,
    (List.getElem?_eq_some_iff.mp hfirst).2, (List.getElem?_eq_some_iff.mp hlast).2] at hbound
  push_cast at hbound
  linarith

/-- The grants to a batch stay within its own rate, whatever is called when, if and only if
no batch on the bucket has a larger rate. -/
theorem rateKept_iff (hpos : ∀ a, 0 < rates a) (hb : 1 ≤ rates b) :
    RateKept rates b ↔ ∀ a, rates a ≤ rates b := by
  refine ⟨fun h a => ?_, rateKept_of_le hpos⟩
  by_contra hlt
  exact not_rateKept hpos hb (not_le.mp hlt) h

/-- Two batches, one with one request in a second and one with two. -/
def twoRates (faster : Bool) : ℚ := if faster then 2 else 1

theorem rateKept_iff_faster : (∀ a, 0 < twoRates a) ∧ 1 ≤ twoRates true ∧
    (RateKept twoRates true ↔ ∀ a, twoRates a ≤ twoRates true) := by
  have hpos : ∀ a, 0 < twoRates a := by decide +kernel
  exact ⟨hpos, by decide +kernel, rateKept_iff hpos (by decide +kernel)⟩

def twoBatchCalls : List (Bool × ℚ) := [(false, 0), (true, 1 / 4), (false, 3 / 4)]

/-- The refused call of the faster batch brings the slower one its second token early. -/
theorem slower_batch_overdraws : (∀ a, 1 ≤ twoRates a) ∧
    twoBatchCalls.Pairwise (fun c d => c.2 ≤ d.2) ∧
    twoRates false + twoRates false * (3 / 4 - 0) <
      grantsTo false (window 0 3 (trace (callStep twoRates) {} twoBatchCalls)) := by
  decide +kernel

end BatchInference
