import BatchInference.RateLimit.Windows
import BatchInference.Workers.Calls

/-!
# How often the provider is called

A retry is made without a grant, so the bucket does not bound the calls by itself; but a grant
is followed by three calls at most. What the items past their acquire may still call, with
three calls for each token that the bucket is worth, is a potential that every call lowers, and
that time raises by at most three times the largest rate. This holds while the script's calls
execute in the order of the times they carry, none of them much later than its own.
-/

namespace BatchInference.ProviderCalls

open JobPool System

/-- The calls that the item may still make without another grant. -/
def Stage.remaining : Stage → ℕ
  | .infer attempt => 3 - attempt
  | .awaiting attempt | .pause attempt _ | .pausing attempt _ | .backoff attempt
  | .sleeping attempt _ => 2 - attempt
  | .acquire | .reading _ | .script .. | .waiting .. => 0

/-- `acquire` has returned. -/
def Stage.acquired : Stage → Bool
  | .acquire | .reading _ | .script .. | .waiting .. => false
  | _ => true

def remaining (w : World Shared Item) : ℕ := (w.pool.map (·.stage.remaining)).sum

def inFlight (w : World Shared Item) : ℕ := w.pool.countP (·.stage.acquired)

theorem remaining_le (w : World Shared Item) : remaining w ≤ 3 * inFlight w := by
  unfold remaining inFlight
  induction w.pool with
  | nil => simp
  | cons item items ih =>
    have hitem : item.stage.remaining ≤ 3 * item.stage.acquired.toNat := by
      cases item.stage <;> simp [Stage.remaining, Stage.acquired]
      all_goals omega
    have hcount : (if item.stage.acquired = true then 1 else 0) = item.stage.acquired.toNat := by
      cases item.stage.acquired <;> rfl
    rw [List.map_cons, List.sum_cons, List.countP_cons, hcount]
    omega

/-- The item has a rate of its own up to `R`, and a script that it executes carries a time that
is not before the last one's and at most `δ` ago. -/
def Item.metered (R δ : ℚ) (s : Shared) (c : Choice) (item : Item) : Bool :=
  0 < item.rate && item.rate ≤ R && match c, item.stage with
    | .next, .script _ now => s.now - δ ≤ now && s.key.hash.level.all (·.ts ≤ now)
    | _, _ => true

def Metered (R δ : ℚ) (w : World Shared Item) (m : Moves) : Prop :=
  match m with
  | .act i c => w.pool[i]?.all fun item => item.metered R δ w.shared c
  | .env _ => True

instance (R δ : ℚ) : DecidableRel (Metered R δ) := fun w m =>
  match m with
  | .act i c => inferInstanceAs (Decidable ((w.pool[i]?.all fun item =>
      item.metered R δ w.shared c) = true))
  | .env _ => .isTrue trivial

variable {floatOfStr : String → Option ℚ} {s : Shared} {c : Choice} {turn : Turn} {stage : Stage}
  {rate R δ : ℚ}

/-! ## What a step does to the key -/

/-- The script's write: the level at the time that it carries. -/
structure Draws (s : Shared) (rate now : ℚ) (turn : Turn) : Prop where
  level : (turn.key.getD s.key).hash.level =
    some ⟨s.key.hash.refilled rate rate now - if turn.granted then 1 else 0, now⟩
  written : (turn.key.getD s.key).written = s.now
  enough : turn.granted = true → 1 ≤ s.key.hash.refilled rate rate now

/-- Nothing is granted, and the bucket keeps its level. -/
structure Leaves (s : Shared) (turn : Turn) : Prop where
  granted : turn.granted = false
  level : (turn.key.getD s.key).hash.level = s.key.hash.level
  written : (turn.key.getD s.key).written = s.key.written ∨
    (turn.key.getD s.key).written = s.now

theorem draws_of_turn (h : stage.turn floatOfStr rate s c = some turn) : Leaves s turn ∨
    ∃ deadline now, c = .next ∧ stage = .script deadline now ∧ Draws s rate now turn := by
  unfold Stage.turn at h
  split at h
  case h_5 deadline now =>
    rw [tokenBucketLua_eq] at h
    dsimp only at h
    by_cases hpaused : now < s.key.hash.paused
    · rw [if_pos hpaused] at h
      cases h
      exact .inl ⟨rfl, rfl, .inl rfl⟩
    · rw [if_neg hpaused] at h
      right
      by_cases htokens : s.key.hash.refilled rate rate now < 1
      · rw [if_pos htokens] at h
        cases h
        exact ⟨deadline, now, rfl, rfl, by simp, rfl, nofun⟩
      · rw [if_neg htokens] at h
        cases h
        exact ⟨deadline, now, rfl, rfl, by simp, rfl, fun _ => not_lt.mp htokens⟩
  case h_7 | h_14 | h_15 =>
    split at h <;> cases h
    exact .inl ⟨rfl, rfl, .inl rfl⟩
  case h_12 =>
    cases h
    exact .inl ⟨rfl, rfl, .inr rfl⟩
  all_goals first | (cases h; exact .inl ⟨rfl, rfl, .inl rfl⟩) | cases h

/-! ## Every run -/

/-- What an item knows where it stands. -/
def Item.Runs (s : Shared) (item : Item) : Prop :=
  match item.stage with
  | .script _ now => 0 < item.rate ∧ now ≤ s.now
  | .reading _ | .waiting .. => 0 < item.rate
  | .infer attempt => attempt < 3
  | _ => True

theorem Item.Runs.mono {s' : Shared} {item : Item} (h : item.Runs s) (hnow : s.now ≤ s'.now) :
    item.Runs s' := by
  obtain ⟨rate, stage, unused⟩ := item
  cases stage with
  | script deadline now => exact ⟨h.1, h.2.trans hnow⟩
  | _ => exact h

theorem Goes.runs (h : Goes s rate c stage turn) {unused left : ℕ}
    (hruns : Item.Runs s ⟨rate, stage, unused⟩) :
    ∀ next ∈ turn.next, Item.Runs s ⟨rate, next, left⟩ := by
  intro next hnext
  cases h with
  | refused =>
    simp only [afterRefusal] at hnext
    split_ifs at hnext <;> cases hnext
    exact hruns.1
  | enter hrate => cases hnext; exact hrate
  | read => cases hnext; exact ⟨hruns, le_rfl⟩
  | wake => cases hnext; exact hruns
  | unlimited | granted => cases hnext; exact Nat.succ_pos 2
  | again hattempt => cases hnext; exact hattempt
  | call | pause | noPause | pauseUntil | paused | pauseRaises | sleep => cases hnext; trivial
  | lost | cancelled | scriptRaises | answered | inferRaises | spent => cases hnext

theorem Leaves.sound (h : Leaves s turn) (hs : s.key.Sound s.now) :
    (turn.key.getD s.key).Sound s.now := by
  intro level hlevel
  rw [h.level] at hlevel
  obtain ⟨htokens, hwritten, hnow⟩ := hs level hlevel
  refine ⟨htokens, ?_, hnow⟩
  rcases h.written with he | he <;> rw [he] <;> assumption

theorem Draws.sound {now : ℚ} (h : Draws s rate now turn) (hs : s.key.Sound s.now)
    (hrate : 0 < rate) (hnow : now ≤ s.now) : (turn.key.getD s.key).Sound s.now := by
  have hfound : 0 ≤ s.key.hash.refilled rate rate now := by
    have hlevel : 0 ≤ (s.key.hash.level.getD ⟨rate, now⟩).tokens := by
      cases he : s.key.hash.level with
      | none => exact hrate.le
      | some level => exact (hs level he).1
    exact le_min hrate.le (add_nonneg hlevel (mul_nonneg (le_max_left ..) hrate.le))
  intro level hlevel
  rw [h.level] at hlevel
  cases hlevel
  refine ⟨?_, h.written ▸ hnow, hnow⟩
  dsimp only
  split_ifs with hgranted
  · linarith [h.enough hgranted]
  · linarith

theorem modular_runs : (items floatOfStr).Modular (fun _ _ => True)
    (fun s => s.key.Sound s.now) Item.Runs := by
  refine ⟨?_, ?_, ?_⟩
  · intro w i c item s' ks hs hJ _ hk hstep
    obtain ⟨turn, hturn, rfl, rfl⟩ := Item.step_iff.mp hstep
    have hruns := hJ item (List.mem_of_getElem? hk)
    refine ⟨?_, List.forall_mem_map.mpr fun next hnext =>
      ((goes_of_turn hturn).runs hruns next (Option.mem_toList.mp hnext)).mono le_rfl⟩
    rcases draws_of_turn hturn with hleaves | ⟨deadline, now, -, hstage, hdraws⟩
    · exact hleaves.sound hs
    · rw [Item.Runs, hstage] at hruns
      exact hdraws.sound hs hruns.1 hruns.2
  · intro w i c item s' ks j _ _ _ _ hstep _ hj
    obtain ⟨turn, -, rfl, -⟩ := Item.step_iff.mp hstep
    exact hj.mono le_rfl
  · intro w e s' ks hs _ henv
    cases e with
    | tick seconds =>
      simp only [items, Outside.step] at henv
      split_ifs at henv with hseconds
      cases henv
      have hnow : w.shared.now ≤ w.shared.now + seconds := by linarith
      refine ⟨fun level hlevel => ?_, by simp, fun j hj => hj.mono hnow⟩
      obtain ⟨htokens, hwritten, hlast⟩ := hs level hlevel
      exact ⟨htokens, hwritten, hlast.trans hnow⟩
    | arrive rate =>
      cases henv
      exact ⟨hs, by simp [Item.Runs], fun _ hj => hj⟩
    | expire =>
      cases henv
      refine ⟨?_, by simp, fun j hj => hj.mono le_rfl⟩
      simp only [Key.step]
      split_ifs
      · rintro _ ⟨⟩
      · exact hs

/-! ## The potential -/

theorem Goes.remaining (h : Goes s rate c stage turn) {unused : ℕ}
    (hruns : Item.Runs s ⟨rate, stage, unused⟩) (hrate : 0 < rate) :
    (turn.next.toList.map (·.remaining)).sum + (c.calls stage).toNat ≤
      stage.remaining + 3 * turn.granted.toNat := by
  cases h with
  | unlimited hunlimited => exact absurd hrate hunlimited.not_gt
  | call =>
    rw [Item.Runs] at hruns
    simp only [Option.toList_some, List.map_singleton, List.sum_singleton, Stage.remaining,
      Choice.calls, Stage.calls, Bool.toNat_true]
    omega
  | again hattempt =>
    simp only [Option.toList_some, List.map_singleton, List.sum_singleton, Stage.remaining,
      Choice.calls, Bool.toNat_false, Stage.calls]
    omega
  | refused =>
    simp only [afterRefusal]
    split_ifs <;> simp [Stage.remaining, Choice.calls, Stage.calls]
  | _ => simp [Stage.remaining, Choice.calls, Stage.calls]

variable {v v' w w' : World Shared Item} {m : Moves} {n : ℕ}

/-- A move of an item, and the calls that are left after it. -/
theorem remaining_of_act {i : ℕ} {item : Item} (hk : v.pool[i]? = some item)
    (hruns : item.Runs v.shared) (hrate : 0 < item.rate)
    (hturn : item.stage.turn floatOfStr item.rate v.shared c = some turn)
    (hpool : v'.pool = others v i ++ turn.next.toList.map fun next =>
      { item with stage := next, unused := left item.stage item.unused turn }) :
    (c.calls item.stage).toNat + remaining v' ≤ remaining v + 3 * turn.granted.toNat := by
  have hbalance := (goes_of_turn hturn).remaining hruns hrate
  have hperm := ((perm_others hk).map (·.stage.remaining)).sum_eq
  simp only [remaining, hpool, List.map_append, List.sum_append, List.map_cons, List.sum_cons,
    List.map_map, Function.comp_def] at hperm hbalance ⊢
  omega

/-- After `n` calls since `w`: what the items may still call, and what the bucket is worth to a
call at any time that is still to come. -/
def Within (R δ : ℚ) (w : World Shared Item) (n : ℕ) (v : World Shared Item) : Prop :=
  ∀ t, v.shared.now - δ ≤ t → (∀ level ∈ v.shared.key.hash.level, level.ts ≤ t) →
    n + remaining v + 3 * v.shared.key.hash.refilled R R t ≤
      remaining w + 3 * (R + R * (t - (w.shared.now - δ)))

namespace Within

theorem start (hR : 0 ≤ R) (w : World Shared Item) : Within R δ w 0 w := by
  intro t ht _
  have hworth : w.shared.key.hash.refilled R R t ≤ R := min_le_left ..
  have hgain : 0 ≤ R * (t - (w.shared.now - δ)) := mul_nonneg hR (by linarith)
  push_cast
  linarith

theorem leave {k : ℕ} (h : Within R δ w n v) (hnow : v.shared.now ≤ v'.shared.now)
    (hlevel : v'.shared.key.hash.level = v.shared.key.hash.level)
    (hcount : k + remaining v' ≤ remaining v) : Within R δ w (n + k) v' := by
  intro t ht hlast
  rw [hlevel] at hlast
  have hbefore := h t (by linarith) hlast
  have hworth : v'.shared.key.hash.refilled R R t = v.shared.key.hash.refilled R R t := by
    simp only [Hash.refilled, hlevel]
  have hcount' : (k : ℚ) + remaining v' ≤ remaining v := by exact_mod_cast hcount
  push_cast
  linarith

/-- A script draws from the level at its own time; what it leaves gains from there on. -/
theorem draw {k : ℕ} {now : ℚ} (h : Within R δ w n v)
    (hs : v.shared.key.Sound v.shared.now) (hdraws : Draws v.shared rate now turn)
    (hrate : rate ≤ R) (hlate : v.shared.now - δ ≤ now)
    (horder : ∀ level ∈ v.shared.key.hash.level, level.ts ≤ now)
    (hkey : v'.shared.key = turn.key.getD v.shared.key)
    (hcount : k + remaining v' ≤ remaining v + 3 * turn.granted.toNat) :
    Within R δ w (n + k) v' := by
  intro t _ hlast
  rw [hkey] at hlast ⊢
  have hnow : now ≤ t := hlast _ hdraws.level
  have hbefore := h now hlate horder
  have hfound : v.shared.key.hash.refilled rate rate now ≤
      v.shared.key.hash.refilled R R now := by
    refine Key.Sound.refilled_mono (fun level hl => ?_) hrate
    obtain ⟨htokens, hwritten, -⟩ := hs level hl
    exact ⟨htokens, hwritten, horder level hl⟩
  have hworth : (turn.key.getD v.shared.key).hash.refilled R R t ≤
      v.shared.key.hash.refilled rate rate now - (if turn.granted then 1 else 0) +
        (t - now) * R := by
    rw [refilled_eq hdraws.level hnow]
    exact min_le_right ..
  have hcount' : (k : ℚ) + remaining v' ≤
      remaining v + 3 * (if turn.granted then 1 else 0) := by
    have hgranted : turn.granted.toNat = if turn.granted then 1 else 0 := by
      cases turn.granted <;> rfl
    rw [hgranted] at hcount
    exact_mod_cast hcount
  have hgain : R * (t - (w.shared.now - δ)) =
      R * (now - (w.shared.now - δ)) + (t - now) * R := by ring
  push_cast
  rw [hgain]
  linarith

/-- A key that has outlived its time would have been full by then. -/
theorem expire (h : Within R δ w n v) (hs : v.shared.key.Sound v.shared.now) (hR : 0 ≤ R)
    (hδ : δ + 1 ≤ ttl) (hnow : v'.shared.now = v.shared.now)
    (hkey : v'.shared.key = (v.shared.key.step (.expire v.shared.now)).1)
    (hpool : v'.pool = v.pool) : Within R δ w n v' := by
  by_cases hold : v.shared.key.written + ttl ≤ v.shared.now
  · intro t ht _
    rw [hnow] at ht
    have hdropped : v'.shared.key.hash.refilled R R t = R := by
      rw [hkey, Key.step, if_pos hold]
      exact refilled_fresh rfl ..
    have hage : ∀ level ∈ v.shared.key.hash.level, 1 ≤ t - level.ts := by
      intro level hlevel
      obtain ⟨-, hwritten, -⟩ := hs level hlevel
      linarith
    have hbefore := h t ht fun level hlevel => by linarith [hage level hlevel]
    have hfull : R ≤ v.shared.key.hash.refilled R R t := by
      cases hlevel : v.shared.key.hash.level with
      | none => exact (refilled_fresh hlevel ..).ge
      | some level =>
        obtain ⟨htokens, -, -⟩ := hs level hlevel
        have hyear := hage level hlevel
        rw [refilled_eq hlevel (by linarith)]
        exact le_min le_rfl (by nlinarith)
    have hremaining : remaining v' = remaining v := by simp only [remaining, hpool]
    rw [hdropped, hremaining]
    linarith
  · refine h.leave (k := 0) hnow.ge ?_ (by simp [remaining, hpool])
    rw [hkey, Key.step, if_neg hold]

end Within

theorem within_of_fire (h : Within R δ w n v) (hR : 0 ≤ R) (hδ : δ + 1 ≤ ttl)
    (hs : v.shared.key.Sound v.shared.now) (hruns : ∀ item ∈ v.pool, item.Runs v.shared)
    (hm : Metered R δ v m) (hf : (items floatOfStr).fire v m = some v') :
    Within R δ w (n + (calls v m).toNat) v' := by
  cases m with
  | act i c =>
    obtain ⟨item, turn, hk, hturn, hv'⟩ := fire_act_iff_turn.mp hf
    have hshared : v'.shared = { v.shared with key := turn.key.getD v.shared.key } := by rw [hv']
    obtain ⟨hrate, hle, hscript⟩ : 0 < item.rate ∧ item.rate ≤ R ∧ _ := by
      simpa only [Metered, hk, Option.all_some, Item.metered, Bool.and_eq_true,
        decide_eq_true_eq, and_assoc] using hm
    have hcount := remaining_of_act hk (hruns item (List.mem_of_getElem? hk)) hrate hturn
      (congrArg World.pool hv')
    simp only [calls, hk, Option.any_some]
    rcases draws_of_turn hturn with hleaves | ⟨deadline, now, rfl, hstage, hdraws⟩
    · rw [hleaves.granted] at hcount
      exact h.leave (by rw [hshared]) (by rw [hshared]; exact hleaves.level) hcount
    · rw [hstage] at hscript
      obtain ⟨hlate, horder⟩ : v.shared.now - δ ≤ now ∧
          ∀ level ∈ v.shared.key.hash.level, level.ts ≤ now := by
        simpa [Option.all_eq_true] using hscript
      exact h.draw hs hdraws hle hlate horder (by rw [hshared]) hcount
  | env e =>
    obtain ⟨⟨s', ks⟩, henv, rfl⟩ := fire_env_iff.mp hf
    cases e with
    | tick seconds =>
      simp only [items, Outside.step] at henv
      split_ifs at henv with hseconds
      cases henv
      exact h.leave (by simpa using hseconds) rfl (by simp [remaining, calls])
    | arrive rate =>
      cases henv
      exact h.leave le_rfl rfl (by simp [remaining, Stage.remaining, calls])
    | expire =>
      cases henv
      exact h.expire hs hR hδ rfl rfl (List.append_nil _)

/-- In any part of a run in which the scripts execute in the order of their times, and at most
`δ` late, the provider is called at most three times for each item that is past its acquire at
the start and for each token that a bucket with the largest rate `R` gives: `R` at once, and `R`
for each second. -/
theorem calls_in_stretch {key : Key} {now : ℚ} {before part : List Moves} (hR : 0 ≤ R)
    (hδ₀ : 0 ≤ δ) (hδ : δ + 1 ≤ ttl) (hkey : key.Sound now)
    (hbefore : (items floatOfStr).run (fun _ _ => True) (opened key now) before = some v)
    (hpart : (items floatOfStr).run (Metered R δ) v part = some w) :
    ((items floatOfStr).count calls v part : ℚ) ≤
      3 * (inFlight v + R + R * (w.shared.now - v.shared.now + δ)) := by
  obtain ⟨hs, hruns⟩ := modular_runs.reach hkey (by simp [opened]) (.of_run hbefore)
  have hwithin : (w.shared.key.Sound w.shared.now ∧ ∀ item ∈ w.pool, item.Runs w.shared) ∧
      Within R δ v ((items floatOfStr).count calls v part) w := by
    refine count_invariant (I := fun n u => (u.shared.key.Sound u.shared.now ∧
      ∀ item ∈ u.pool, item.Runs u.shared) ∧ Within R δ v n u) hpart
      ⟨⟨hs, hruns⟩, .start hR v⟩ ?_
    rintro n u m u' ⟨⟨hs, hruns⟩, hwithin⟩ hm hf
    exact ⟨modular_runs.reach hs hruns (.step .refl trivial hf),
      within_of_fire hwithin hR hδ hs hruns hm hf⟩
  obtain ⟨⟨hsound, -⟩, hwithin⟩ := hwithin
  have hend := hwithin w.shared.now (by linarith) fun level hlevel => (hsound level hlevel).2.2
  have hworth : 0 ≤ w.shared.key.hash.refilled R R w.shared.now := hsound.refilled_nonneg hR
  have hstart : (remaining v : ℚ) ≤ 3 * inFlight v := by exact_mod_cast remaining_le v
  have hleft : (0 : ℚ) ≤ remaining w := by positivity
  have hspan : R * (w.shared.now - (v.shared.now - δ)) =
      R * (w.shared.now - v.shared.now + δ) := by ring
  rw [hspan] at hend
  linarith

/-- The item of `beforeRetry` calls twice with one grant, in the second that it sleeps. -/
theorem calls_in_stretch_retried : ∃ w,
    (items floatOfTen).run (Metered 1 0) (opened {} 0) (beforeRetry ++ [.act 0 .next]) = some w ∧
    (items floatOfTen).count calls (opened {} 0) (beforeRetry ++ [.act 0 .next]) = 2 ∧
    ((items floatOfTen).count calls (opened {} 0) (beforeRetry ++ [.act 0 .next]) : ℚ) ≤
      3 * (0 + 1 + 1 * (w.shared.now - 0 + 0)) := by
  have hrun : ((items floatOfTen).run (Metered 1 0) (opened {} 0)
      (beforeRetry ++ [.act 0 .next])).isSome = true := by decide +kernel
  obtain ⟨w, hw⟩ := Option.isSome_iff_exists.mp hrun
  have hcount : (items floatOfTen).count calls (opened {} 0)
      (beforeRetry ++ [.act 0 .next]) = 2 := by
    decide +kernel
  have hbound := calls_in_stretch zero_le_one le_rfl (by norm_num [ttl]) (by simp [Key.Sound])
    (rfl : (items floatOfTen).run (fun _ _ => True) (opened {} 0) [] = some (opened {} 0)) hw
  exact ⟨w, hw, hcount, by simpa [opened, inFlight] using hbound⟩

end BatchInference.ProviderCalls
