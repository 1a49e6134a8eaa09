import BatchInference.RateLimit.Bucket
import Mathlib.Algebra.Order.Archimedean.Basic
import Mathlib.Algebra.Order.Floor.Semiring

/-!
# Calls out of order

A worker reads its clock before the script runs, so that calls may come in any order of
their times. A call from before the stored time refills nothing but sets the time back, and
the stretch in between is then credited again: the bucket credits every climb of the times.
-/

namespace BatchInference

open Machine

variable {capacity rate tokens ts : ℚ} {nows : List ℚ}

/-- Calls for one token, with one capacity and one rate. -/
def bucketStep (capacity rate : ℚ) (key : Key) (now : ℚ) : Key × Bool :=
  key.step (.acquire capacity rate 1 now)

def granted (calls : List (ℚ × Bool)) : ℕ := calls.countP (·.2)

/-- What the calls are granted on a fresh key. -/
def totalGrants (capacity rate : ℚ) (nows : List ℚ) : ℕ :=
  granted (trace (bucketStep capacity rate) {} nows)

/-- `max now - min now` -/
def span : List ℚ → ℚ
  | [] => 0
  | now :: nows => nows.foldl max now - nows.foldl min now

/-- How far the times climb after `ts`. -/
def climb : ℚ → List ℚ → ℚ
  | _, [] => 0
  | ts, now :: nows => max 0 (now - ts) + climb now nows

/-- How far the times climb in all. -/
def rises : List ℚ → ℚ
  | [] => 0
  | now :: nows => climb now nows

/-- The times that a clock can show; a call before 0 finds the bucket paused until 0. -/
def shown (nows : List ℚ) : List ℚ := nows.filter (0 ≤ ·)

theorem shown_cons_neg {now : ℚ} (h : now < 0) : shown (now :: nows) = shown nows :=
  List.filter_cons_of_neg (by simpa using h)

theorem shown_cons {now : ℚ} (h : 0 ≤ now) : shown (now :: nows) = now :: shown nows :=
  List.filter_cons_of_pos (by simpa using h)

@[simp] theorem granted_cons (p : ℚ × Bool) (calls : List (ℚ × Bool)) :
    granted (p :: calls) = granted calls + if p.2 then 1 else 0 := List.countP_cons ..

@[simp] theorem granted_append (calls calls' : List (ℚ × Bool)) :
    granted (calls ++ calls') = granted calls + granted calls' := List.countP_append

/-- A bucket without a pause: fresh, or left by a call. -/
theorem bucketStep_negative {key : Key} (hkey : key.hash.pauseUntil = none) {now : ℚ}
    (h : now < 0) : bucketStep capacity rate key now = (key, false) := by
  rcases key.acquire_cases capacity rate 1 now with ⟨-, hstep⟩ | ⟨hpaused, -⟩
  · exact hstep
  · rw [Hash.paused, hkey, Option.getD_none] at hpaused
    exact absurd h hpaused.not_gt

theorem bucketStep_holding {now : ℚ} (h : 0 ≤ now) :
    let found := min capacity (tokens + max 0 (now - ts) * rate)
    bucketStep capacity rate (.holding tokens ts) now =
      if found < 1 then (.holding found now, false) else (.holding (found - 1) now, true) :=
  Key.step_holding h

theorem climb_nonneg (ts : ℚ) (nows : List ℚ) : 0 ≤ climb ts nows := by
  induction nows generalizing ts with
  | nil => exact le_rfl
  | cons now nows ih => exact add_nonneg (le_max_left ..) (ih now)

/-! ## At most -/

theorem granted_le_climb (hcapacity : 0 ≤ capacity) (hrate : 0 ≤ rate) (htokens : 0 ≤ tokens)
    (ts : ℚ) (nows : List ℚ) :
    (granted (trace (bucketStep capacity rate) (.holding tokens ts) nows) : ℚ) ≤
      tokens + rate * climb ts (shown nows) := by
  induction nows generalizing tokens ts with
  | nil => simpa [granted, shown, climb] using htokens
  | cons now nows ih =>
    rw [trace_cons, granted_cons]
    rcases lt_or_ge now 0 with hneg | hpos
    · rw [bucketStep_negative rfl hneg, shown_cons_neg hneg]
      simpa using ih htokens ts
    · have hgain : 0 ≤ max 0 (now - ts) * rate := mul_nonneg (le_max_left ..) hrate
      have hfound := min_le_right capacity (tokens + max 0 (now - ts) * rate)
      have hleft : 0 ≤ min capacity (tokens + max 0 (now - ts) * rate) :=
        le_min hcapacity (by linarith)
      rw [bucketStep_holding hpos, shown_cons hpos, climb, mul_add]
      generalize min capacity (tokens + max 0 (now - ts) * rate) = found at hfound hleft ⊢
      by_cases hshort : found < 1
      · have := ih hleft now
        simp only [if_pos hshort, Bool.false_eq_true, ↓reduceIte, add_zero]
        linarith
      · have := ih (sub_nonneg.mpr (not_lt.mp hshort)) now
        simp only [if_neg hshort, ↓reduceIte]
        push_cast
        linarith

/-- The first call may as well come from a key that has been filled up already. -/
theorem bucketStep_filled {now : ℚ} (h : 0 ≤ now) :
    let found := min capacity (tokens + max 0 (now - ts) * rate)
    bucketStep capacity rate (.holding tokens ts) now =
      bucketStep capacity rate (.holding found now) now := by
  simp [bucketStep_holding h]

theorem totalGrants_le_rises (hcapacity : 0 ≤ capacity) (hrate : 0 ≤ rate) (nows : List ℚ) :
    (totalGrants capacity rate nows : ℚ) ≤ capacity + rate * rises (shown nows) := by
  rw [totalGrants]
  induction nows with
  | nil => simpa [granted, shown, rises] using hcapacity
  | cons now nows ih =>
    rcases lt_or_ge now 0 with hneg | hpos
    · rw [trace_cons, bucketStep_negative rfl hneg, shown_cons_neg hneg]
      simpa using ih
    · have hfull := granted_le_climb hcapacity hrate hcapacity now (now :: nows)
      rw [trace_cons] at hfull ⊢
      rw [bucketStep, Key.step_fresh hpos]
      simpa [bucketStep, shown_cons hpos, climb, rises] using hfull

/-! ## At least -/

/-- Each time with the number of further calls that have it. -/
def callsOf (bursts : List (ℚ × ℕ)) : List ℚ :=
  bursts.flatMap fun burst => List.replicate (burst.2 + 1) burst.1

theorem climb_replicate (now : ℚ) (k : ℕ) (nows : List ℚ) :
    climb now (List.replicate k now ++ nows) = climb now nows := by
  induction k with
  | zero => rfl
  | succ k ih => simp [List.replicate_succ, climb, ih]

theorem shown_callsOf_cons (burst : ℚ × ℕ) (bursts : List (ℚ × ℕ)) :
    shown (callsOf (burst :: bursts)) =
      (if 0 ≤ burst.1 then List.replicate (burst.2 + 1) burst.1 else []) ++
        shown (callsOf bursts) := by
  rw [callsOf, List.flatMap_cons, shown, List.filter_append, List.filter_replicate]
  simp [callsOf, shown]

theorem climb_callsOf (ts : ℚ) (bursts : List (ℚ × ℕ)) :
    climb ts (shown (callsOf bursts)) = climb ts (shown (bursts.map Prod.fst)) := by
  induction bursts generalizing ts with
  | nil => rfl
  | cons burst bursts ih =>
    rw [shown_callsOf_cons, List.map_cons]
    split_ifs with hpos
    · rw [shown_cons hpos, List.replicate_succ, List.cons_append, climb, climb_replicate, ih,
        climb]
    · rw [shown_cons_neg (not_le.mp hpos), List.nil_append, ih]

theorem rises_callsOf (bursts : List (ℚ × ℕ)) :
    rises (shown (callsOf bursts)) = rises (shown (bursts.map Prod.fst)) := by
  induction bursts with
  | nil => rfl
  | cons burst bursts ih =>
    rw [shown_callsOf_cons, List.map_cons]
    split_ifs with hpos
    · rw [shown_cons hpos, List.replicate_succ, List.cons_append, rises, climb_replicate,
        climb_callsOf, rises]
    · rw [shown_cons_neg (not_le.mp hpos), List.nil_append, ih]

/-- Calls enough at one time leave less than a token. -/
theorem run_burst (rate : ℚ) {now : ℚ} (hnow : 0 ≤ now) (hle : tokens ≤ capacity) (h : 0 ≤ tokens)
    {m : ℕ} (hm : tokens < m + 1) : ∃ left, 0 ≤ left ∧ left < 1 ∧
      after (bucketStep capacity rate) (.holding tokens now) (List.replicate m now) =
        .holding left now ∧
      granted (trace (bucketStep capacity rate) (.holding tokens now) (List.replicate m now)) +
        left = tokens := by
  induction m generalizing tokens with
  | zero => exact ⟨tokens, h, by simpa using hm, rfl, by simp [granted]⟩
  | succ m ih =>
    have hfound : min capacity (tokens + max 0 (now - now) * rate) = tokens := by simp [hle]
    push_cast at hm
    rw [List.replicate_succ, after_cons, trace_cons, granted_cons, bucketStep_holding hnow, hfound]
    by_cases hshort : tokens < 1
    · obtain ⟨left, hleft, hlt, hafter, hsum⟩ := ih hle h (by
        have : (0 : ℚ) ≤ m := Nat.cast_nonneg m
        linarith)
      refine ⟨left, hleft, hlt, ?_, ?_⟩
      · simpa only [if_pos hshort] using hafter
      · simpa only [if_pos hshort, Bool.false_eq_true, ↓reduceIte, add_zero] using hsum
    · have hless : tokens - 1 ≤ capacity := by linarith
      obtain ⟨left, hleft, hlt, hafter, hsum⟩ := ih hless (by linarith) (by linarith)
      refine ⟨left, hleft, hlt, ?_, ?_⟩
      · simpa only [if_neg hshort] using hafter
      · simp only [if_neg hshort, ↓reduceIte]
        push_cast
        linarith

theorem run_burst_from (ts : ℚ) {now : ℚ} (hnow : 0 ≤ now) (hcapacity : 0 ≤ capacity)
    (hrate : 0 ≤ rate) (h : 0 ≤ tokens) {m : ℕ} (hm : capacity ≤ m + 1) :
    ∃ left, 0 ≤ left ∧ left < 1 ∧
      after (bucketStep capacity rate) (.holding tokens ts) (List.replicate (m + 1) now) =
        .holding left now ∧
      granted (trace (bucketStep capacity rate) (.holding tokens ts)
          (List.replicate (m + 1) now)) + left =
        min capacity (tokens + max 0 (now - ts) * rate) := by
  have hgain : 0 ≤ max 0 (now - ts) * rate := mul_nonneg (le_max_left ..) hrate
  have hfound := min_le_left capacity (tokens + max 0 (now - ts) * rate)
  obtain ⟨left, hleft, hlt, hafter, hsum⟩ := run_burst rate hnow hfound
    (le_min hcapacity (by linarith)) (m := m + 1) (by push_cast; linarith)
  refine ⟨left, hleft, hlt, ?_, ?_⟩
  · rwa [List.replicate_succ, after_cons, bucketStep_filled hnow]
  · rwa [List.replicate_succ, trace_cons, bucketStep_filled hnow]

theorem run_negative (capacity rate : ℚ) {key : Key} (hkey : key.hash.pauseUntil = none)
    {now : ℚ} (h : now < 0) (m : ℕ) :
    after (bucketStep capacity rate) key (List.replicate m now) = key ∧
      granted (trace (bucketStep capacity rate) key (List.replicate m now)) = 0 := by
  induction m with
  | zero => exact ⟨rfl, rfl⟩
  | succ m ih =>
    rw [List.replicate_succ, after_cons, trace_cons, bucketStep_negative hkey h, granted_cons]
    simpa using ih

/-- With a capacity that is never reached, and calls enough at each time, every climb is
granted. -/
theorem climb_lt_granted {k : ℕ} (hrate : 0 ≤ rate) (hk : capacity ≤ k + 1) (h : 0 ≤ tokens)
    (hlt : tokens < 1) (hcapacity : 1 + rate * climb ts (shown nows) ≤ capacity) :
    tokens + rate * climb ts (shown nows) <
      granted (trace (bucketStep capacity rate) (.holding tokens ts)
        (callsOf (nows.map fun now => (now, k)))) + 1 := by
  induction nows generalizing tokens ts with
  | nil => simpa [granted, shown, climb, callsOf] using hlt
  | cons now nows ih =>
    rw [List.map_cons, callsOf, List.flatMap_cons, ← callsOf, trace_append, granted_append]
    rcases lt_or_ge now 0 with hneg | hpos
    · rw [shown_cons_neg hneg] at hcapacity ⊢
      obtain ⟨hafter, hnone⟩ := run_negative capacity rate
        (rfl : (Key.holding tokens ts).hash.pauseUntil = none) hneg (k + 1)
      rw [hafter, hnone, zero_add]
      exact ih h hlt hcapacity
    · have hgain : 0 ≤ max 0 (now - ts) * rate := mul_nonneg (le_max_left ..) hrate
      have hlater : 0 ≤ rate * climb now (shown nows) := mul_nonneg hrate (climb_nonneg ..)
      rw [shown_cons hpos, climb, mul_add] at hcapacity ⊢
      obtain ⟨left, hleft, hlt, hafter, hsum⟩ :=
        run_burst_from ts hpos (by linarith) hrate h hk
      rw [min_eq_right (by linarith)] at hsum
      have := ih hleft hlt (by linarith)
      rw [hafter]
      push_cast
      linarith

theorem rises_lt_totalGrants {k : ℕ} (hrate : 0 ≤ rate) (hk : capacity ≤ k + 1)
    (hcapacity : 1 + rate * rises (shown nows) ≤ capacity) (hshown : shown nows ≠ []) :
    capacity + rate * rises (shown nows) <
      totalGrants capacity rate (callsOf (nows.map fun now => (now, k))) + 1 := by
  rw [totalGrants]
  induction nows with
  | nil => exact absurd rfl hshown
  | cons now nows ih =>
    rw [List.map_cons, callsOf, List.flatMap_cons, ← callsOf, trace_append, granted_append]
    rcases lt_or_ge now 0 with hneg | hpos
    · rw [shown_cons_neg hneg] at hcapacity hshown ⊢
      obtain ⟨hafter, hnone⟩ := run_negative capacity rate
        (rfl : ({} : Key).hash.pauseUntil = none) hneg (k + 1)
      rw [hafter, hnone, zero_add]
      exact ih hcapacity hshown
    · rw [shown_cons hpos, rises] at hcapacity ⊢
      have hlater : 0 ≤ rate * climb now (shown nows) := mul_nonneg hrate (climb_nonneg ..)
      have hnonneg : 0 ≤ capacity := by linarith
      obtain ⟨left, hleft, hlt, hafter, hsum⟩ :=
        run_burst_from now hpos hnonneg hrate hnonneg hk
      have hfull : min capacity (capacity + max 0 (now - now) * rate) = capacity := by simp
      have hfresh : bucketStep capacity rate {} now =
          bucketStep capacity rate (.holding capacity now) now := Key.step_fresh hpos
      rw [hfull] at hsum
      have := climb_lt_granted hrate hk hleft hlt (show 1 + rate * climb now (shown nows) ≤ _ from
        hcapacity)
      rw [List.replicate_succ, after_cons, trace_cons, hfresh, ← after_cons, ← trace_cons,
        ← List.replicate_succ, hafter]
      push_cast
      linarith

theorem foldl_min_le_max (now : ℚ) (nows : List ℚ) :
    nows.foldl min now ≤ now ∧ now ≤ nows.foldl max now := by
  induction nows generalizing now with
  | nil => exact ⟨le_rfl, le_rfl⟩
  | cons n nows ih =>
    exact ⟨(ih (min now n)).1.trans (min_le_left ..), (le_max_left ..).trans (ih (max now n)).2⟩

theorem span_nonneg (nows : List ℚ) : 0 ≤ span nows := by
  cases nows with
  | nil => exact le_rfl
  | cons now nows =>
    obtain ⟨hmin, hmax⟩ := foldl_min_le_max now nows
    exact sub_nonneg.mpr (hmin.trans hmax)

/-- The grants stay within the capacity and the rate times the span of the times, for all
capacities and rates and for any number of calls at each time, if and only if the times
climb no further than their span in all. -/
theorem span_bounds_grants_iff : (∀ capacity rate : ℚ, 0 < capacity → 0 < rate →
      ∀ bursts : List (ℚ × ℕ), bursts.map Prod.fst = nows →
        (totalGrants capacity rate (callsOf bursts) : ℚ) ≤ capacity + rate * span nows) ↔
    rises (shown nows) ≤ span nows := by
  constructor
  · intro h
    by_contra! hlt
    have hshown : shown nows ≠ [] := by
      intro hnil
      rw [hnil, rises] at hlt
      exact (span_nonneg nows).not_gt hlt
    have hrises := (span_nonneg nows).trans_lt hlt
    have hgap : 0 < rises (shown nows) - span nows := by linarith
    obtain ⟨rate, hrate, htwo⟩ :
        ∃ rate : ℚ, 0 < rate ∧ rate * (rises (shown nows) - span nows) = 2 :=
      ⟨2 / (rises (shown nows) - span nows), by positivity, div_mul_cancel₀ _ hgap.ne'⟩
    obtain ⟨k, hk⟩ := exists_nat_ge (1 + rate * rises (shown nows))
    have hless := h (1 + rate * rises (shown nows)) rate (by positivity) hrate
      (nows.map fun now => (now, k)) (by simp [Function.comp_def])
    have hmore := rises_lt_totalGrants hrate.le (k := k) (by linarith) le_rfl hshown
    rw [mul_sub] at htwo
    linarith
  · rintro h capacity rate hcapacity hrate bursts rfl
    have hbound := totalGrants_le_rises hcapacity.le hrate.le (callsOf bursts)
    rw [rises_callsOf] at hbound
    exact hbound.trans (by gcongr)

/-- The stretch from 0 to 1 is credited twice. -/
theorem stretch_credited_twice :
    (1 : ℚ) + 1 * span [0, 1, 0, 1] < totalGrants 1 1 [0, 1, 0, 1] := by
  decide +kernel

end BatchInference
