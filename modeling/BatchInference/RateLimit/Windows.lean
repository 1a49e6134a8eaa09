import BatchInference.RateLimit.Bucket

/-!
# What a bucket grants in a window

Workers with different rates refill one bucket, each at its own rate and up to its own
capacity. At any time the bucket is worth at most the largest of these rates, and it gains
no more than that in each second, so that this bounds what it grants in any window.
-/

namespace BatchInference

open Machine

variable {ops : List Op} {R t u : ℚ} {key : Key} {op : Op}

/-- A call as the jobs make it. -/
def Op.Paid : Op → Prop
  | .acquire capacity rate requested _ => capacity = rate ∧ requested = 1 ∧ 0 < rate
  | .pause .. | .expire _ => True

@[simp] theorem Op.paid_call (r now : ℚ) : (Op.call r now).Paid ↔ 0 < r := by
  simp [Op.call, Op.Paid]

def largestRate (ops : List Op) : ℚ := (ops.map Op.rate).foldr max 0

theorem largestRate_nonneg (ops : List Op) : 0 ≤ largestRate ops := by
  induction ops with
  | nil => exact le_rfl
  | cons op ops ih => exact ih.trans (le_max_right _ _)

theorem rate_le_largestRate (h : op ∈ ops) : op.rate ≤ largestRate ops := by
  induction ops with
  | nil => cases h
  | cons o ops ih =>
    rcases List.mem_cons.mp h with rfl | h
    · exact le_max_left _ _
    · exact (ih h).trans (le_max_right _ _)

/-- No debts, and no level from after the last write or after `t`. -/
def Key.Sound (t : ℚ) (key : Key) : Prop :=
  ∀ level ∈ key.hash.level, 0 ≤ level.tokens ∧ level.ts ≤ key.written ∧ level.ts ≤ t

theorem refilled_eq {hash : Hash} {level : Level} (h : hash.level = some level)
    (hle : level.ts ≤ t) (capacity rate : ℚ) :
    hash.refilled capacity rate t = min capacity (level.tokens + (t - level.ts) * rate) := by
  simp [Hash.refilled, h, hle]

theorem refilled_fresh {hash : Hash} (h : hash.level = none) (capacity rate now : ℚ) :
    hash.refilled capacity rate now = capacity := by
  simp [Hash.refilled, h]

theorem Key.Sound.refilled_nonneg (h : key.Sound t) (hR : 0 ≤ R) :
    0 ≤ key.hash.refilled R R t := by
  cases hlevel : key.hash.level with
  | none => rwa [refilled_fresh hlevel]
  | some level =>
    obtain ⟨htokens, -, hts⟩ := h level hlevel
    rw [refilled_eq hlevel hts]
    have : 0 ≤ (t - level.ts) * R := mul_nonneg (by linarith) hR
    exact le_min hR (by linarith)

theorem Key.Sound.refilled_mono {r : ℚ} (h : key.Sound t) (hr : r ≤ R) :
    key.hash.refilled r r t ≤ key.hash.refilled R R t := by
  cases hlevel : key.hash.level with
  | none => rwa [refilled_fresh hlevel, refilled_fresh hlevel]
  | some level =>
    obtain ⟨-, -, hts⟩ := h level hlevel
    rw [refilled_eq hlevel hts, refilled_eq hlevel hts]
    have : (t - level.ts) * r ≤ (t - level.ts) * R :=
      mul_le_mul_of_nonneg_left hr (by linarith)
    exact min_le_min hr (by linarith)

theorem clocked {ok : Op → Prop} (hok : ∀ op, ok op → op.Paid) :
    Clocked Key.step Op.now ok Key.Sound := by
  constructor
  · intro t u key h hle level hlevel
    obtain ⟨htokens, hwritten, hts⟩ := h level hlevel
    exact ⟨htokens, hwritten, hts.trans hle⟩
  · intro key op h hop
    cases op with
    | acquire capacity rate requested now =>
      obtain ⟨rfl, rfl, hrate⟩ := hok _ hop
      have := h.refilled_nonneg hrate.le
      rcases key.acquire_cases capacity capacity 1 now with
        ⟨-, hstep⟩ | ⟨-, ⟨-, hstep⟩ | ⟨htokens, hstep⟩⟩ <;> rw [hstep]
      · exact h
      · rintro _ ⟨⟩
        exact ⟨this, le_rfl, le_rfl⟩
      · rintro _ ⟨⟩
        exact ⟨by simpa using htokens, le_rfl, le_rfl⟩
    | pause seconds now =>
      intro level hlevel
      obtain ⟨htokens, -, hts⟩ := h level hlevel
      exact ⟨htokens, hts, hts⟩
    | expire now =>
      simp only [Key.step]
      split_ifs
      · rintro _ ⟨⟩
      · exact h

theorem refilled_write_le (key : Key) (tokens now : ℚ) :
    (key.write tokens now).hash.refilled R R now ≤ tokens := by
  simp [Hash.refilled]

/-- A bucket is worth what a caller with the largest rate would find. -/
theorem credit (hR : 0 ≤ R) : Credit Key.step Op.now (fun op => op.Paid ∧ op.rate ≤ R)
    Key.Sound (fun p => p.2) R (fun t key => key.hash.refilled R R t) := by
  constructor
  · intro t u key h hle
    have hgain : 0 ≤ R * (u - t) := mul_nonneg hR (by linarith)
    cases hlevel : key.hash.level with
    | none =>
      rw [refilled_fresh hlevel, refilled_fresh hlevel]
      linarith
    | some level =>
      obtain ⟨-, -, hts⟩ := h level hlevel
      rw [refilled_eq hlevel hts, refilled_eq hlevel (hts.trans hle), ← min_add_add_right]
      exact min_le_min (by linarith) (by linarith)
  · intro key op h hop
    obtain ⟨hpaid, hrate⟩ := hop
    cases op with
    | acquire capacity rate requested now =>
      obtain ⟨rfl, rfl, -⟩ := hpaid
      have hmono : key.hash.refilled capacity capacity now ≤ key.hash.refilled R R now :=
        h.refilled_mono hrate
      rcases key.acquire_cases capacity capacity 1 now with
        ⟨-, hstep⟩ | ⟨-, ⟨-, hstep⟩ | ⟨htokens, hstep⟩⟩ <;> rw [hstep]
      · simp
      · simpa [Op.now] using (refilled_write_le key _ now).trans hmono
      · simp only [Op.now, ↓reduceIte]
        have := refilled_write_le (R := R) key (key.hash.refilled capacity capacity now - 1) now
        linarith
    | pause seconds now => simp [Key.step, pauseLua, Hash.refilled]
    | expire now =>
      by_cases hold : key.written + ttl ≤ now
      · simp only [Key.step, if_pos hold, refilled_fresh, Bool.false_eq_true, ↓reduceIte,
          add_zero]
        cases hlevel : key.hash.level with
        | none => rw [refilled_fresh hlevel]
        | some level =>
          obtain ⟨htokens, hwritten, hts⟩ := h level hlevel
          have hgain : 1 * R ≤ (now - level.ts) * R := by
            refine mul_le_mul_of_nonneg_right ?_ hR
            rw [ttl] at hold
            linarith
          rw [refilled_eq hlevel hts]
          exact le_min le_rfl (by simp only [Op.now]; linarith)
      · simp [Key.step, Op.now, hold]

/-- What a window grants, if no call in it has a larger rate than `R`. -/
theorem countP_window_le (hsorted : ops.Pairwise fun a b => a.now ≤ b.now)
    (hpaid : ∀ op ∈ ops, op.Paid) {i j : ℕ} (hij : i ≤ j) (hj : j < ops.length) (hR : 0 ≤ R)
    (hrates : ∀ op ∈ window i (j + 1) ops, op.rate ≤ R) :
    ((window i (j + 1) (trace Key.step {} ops)).countP (·.2) : ℚ) ≤
      R + R * (ops[j].now - ops[i].now) := by
  rw [window_trace (by omega)]
  have hfresh : Key.Sound ops[0].now {} := by simp [Key.Sound]
  have hbefore : Between Op.now Op.Paid ops[0].now ops[i].now (ops.take i) :=
    .window hsorted (Nat.zero_le i) (by omega) (by omega) fun op h =>
      hpaid op (List.mem_of_mem_take h)
  have hwindow : Between Op.now (fun op => op.Paid ∧ op.rate ≤ R) ops[i].now ops[j].now
      (window i (j + 1) ops) :=
    .window hsorted hij hj le_rfl fun op h =>
      ⟨hpaid op (List.mem_of_mem_take (List.mem_of_mem_drop h)), hrates op h⟩
  have hsound := (clocked fun _ h => h).after hfresh hbefore
  have hclocked : Clocked Key.step Op.now (fun op => op.Paid ∧ op.rate ≤ R) Key.Sound :=
    clocked fun _ h => h.1
  have hpaidFor := (credit hR).countP_le hclocked hsound hwindow
  have hleft := (hclocked.after hsound hwindow).refilled_nonneg hR
  have hstart : ((after Key.step {} (ops.take i)).hash.refilled R R ops[i].now) ≤ R :=
    min_le_left _ _
  linarith

/-- In any window of the calls on a bucket, it grants at most the largest rate of the calls
in the window, and as much again for each second of it. -/
theorem grants_in_window (hsorted : ops.Pairwise fun a b => a.now ≤ b.now)
    (hpaid : ∀ op ∈ ops, op.Paid) {i j : ℕ} (hij : i ≤ j) (hj : j < ops.length) :
    let R := largestRate (window i (j + 1) ops)
    ((window i (j + 1) (trace Key.step {} ops)).countP (·.2) : ℚ) ≤
      R + R * (ops[j].now - ops[i].now) :=
  countP_window_le hsorted hpaid hij hj (largestRate_nonneg _) fun _ => rate_le_largestRate

/-- Two workers with different rates, a pause, and an hour without a call. -/
def sharedCalls : List Op :=
  [.call 2 0, .call 3 0, .call 2 0, .pause 1 (1 / 2), .call 3 1, .call 3 2, .expire 4000,
    .call 2 4000]

theorem grants_in_window_sharedCalls :
    sharedCalls.Pairwise (fun a b => a.now ≤ b.now) ∧ (∀ op ∈ sharedCalls, op.Paid) ∧
    ((window 1 8 (trace Key.step {} sharedCalls)).countP (·.2) : ℚ) ≤
      largestRate (window 1 8 sharedCalls) +
        largestRate (window 1 8 sharedCalls) * (4000 - 0) := by
  have hsorted : sharedCalls.Pairwise fun a b => a.now ≤ b.now := by
    simp [sharedCalls, Op.call, Op.now]
    norm_num
  have hpaid : ∀ op ∈ sharedCalls, op.Paid := by simp [sharedCalls, Op.call, Op.Paid]
  exact ⟨hsorted, hpaid, grants_in_window hsorted hpaid (i := 1) (j := 7) (by decide) (by decide)⟩

end BatchInference
