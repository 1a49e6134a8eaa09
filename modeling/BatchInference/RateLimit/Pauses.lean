import BatchInference.RateLimit.Bucket
import Mathlib.Data.List.Induction

/-!
# Pauses

A worker that sees a 429 writes `pause_until`, whatever another one has written before. A
pause holds until its end if no later pause that ends sooner is written meanwhile, and if
the key does not expire.
-/

namespace BatchInference

open Machine

variable {ops pre : List Op} {op : Op} {key : Key} {t : ℚ}

/-- In every state of the run, a call at a time within a pause would be refused. -/
def Honoured (ops : List Op) : Prop :=
  ∀ pre, pre <+: ops → ∀ seconds t, .pause seconds t ∈ pre →
    ∀ capacity rate requested now, (∀ op ∈ pre, op.now ≤ now) → now < t + seconds →
      ((after Key.step {} pre).step (.acquire capacity rate requested now)).2 = false

/-- While a pause is in force, no pause ends before it, and the key is not dropped (the
missing pause of a dropped key counts as one until 0). -/
def Keeps (pre : List Op) (op : Op) : Prop :=
  ∀ seconds t, .pause seconds t ∈ pre → op.now < t + seconds → match op with
    | .acquire .. => True
    | .pause seconds' now => t + seconds ≤ now + max seconds' 0
    | .expire now => (after Key.step {} pre).written + ttl ≤ now → t + seconds ≤ 0

/-- What a call leaves of the pause. -/
theorem paused_acquire (capacity rate requested now : ℚ) :
    (key.step (.acquire capacity rate requested now)).1.hash.pauseUntil =
      key.hash.pauseUntil := by
  rcases key.acquire_cases capacity rate requested now with
    ⟨-, hstep⟩ | ⟨-, ⟨-, hstep⟩ | ⟨-, hstep⟩⟩ <;> rw [hstep] <;> rfl

theorem refused_of_paused {capacity rate requested now : ℚ} (h : now < key.hash.paused) :
    (key.step (.acquire capacity rate requested now)).2 = false := by
  rcases key.acquire_cases capacity rate requested now with ⟨-, hstep⟩ | ⟨hpaused, -⟩
  · rw [hstep]
  · exact absurd h hpaused.not_gt

/-- Every pause is over at `t`, or the key is paused until its end. -/
def InForce (pre : List Op) (key : Key) (t : ℚ) : Prop :=
  ∀ seconds start, .pause seconds start ∈ pre →
    start + seconds ≤ t ∨ start + seconds ≤ key.hash.paused

theorem InForce.step (h : InForce pre (after Key.step {} pre) op.now) (hkeeps : Keeps pre op) :
    InForce (pre ++ [op]) (after Key.step {} (pre ++ [op])) op.now := by
  intro seconds start hpause
  rw [after_append, after_cons, after_nil]
  rcases List.mem_append.mp hpause with hpause | hpause
  · rcases le_or_gt (start + seconds) op.now with hover | hforce
    · exact .inl hover
    · have hpaused := (h seconds start hpause).resolve_left hforce.not_ge
      have hkept := hkeeps seconds start hpause hforce
      right
      cases op with
      | acquire capacity rate requested now => rwa [Hash.paused, paused_acquire]
      | pause seconds' now => exact hkept
      | expire now =>
        simp only [Key.step]
        split_ifs with hold
        · exact hkept hold
        · exact hpaused
  · obtain rfl := List.mem_singleton.mp hpause
    have : seconds ≤ max seconds 0 := le_max_left ..
    right
    change start + seconds ≤ start + max seconds 0
    linarith

theorem now_le_of_prefix (hsorted : ops.Pairwise fun a b => a.now ≤ b.now)
    (hpre : pre ++ [op] <+: ops) : ∀ o ∈ pre ++ [op], o.now ≤ op.now := by
  have hbefore := (List.pairwise_append.mp (hsorted.sublist hpre.sublist)).2.2
  intro o ho
  rcases List.mem_append.mp ho with ho | ho
  · exact hbefore o ho op (List.mem_singleton.mpr rfl)
  · rw [List.mem_singleton.mp ho]

theorem inForce_of_keeps (hsorted : ops.Pairwise fun a b => a.now ≤ b.now)
    (hkeeps : ∀ pre op, pre ++ [op] <+: ops → Keeps pre op) (hpre : pre <+: ops)
    (hlast : ∀ op ∈ pre, op.now ≤ t) : InForce pre (after Key.step {} pre) t := by
  induction pre using List.reverseRecOn generalizing t with
  | nil => exact fun _ _ h => nomatch h
  | append_singleton pre op ih =>
    have hbefore : ∀ o ∈ pre, o.now ≤ op.now := fun o ho =>
      now_le_of_prefix hsorted hpre o (List.mem_append_left _ ho)
    have hstep := (ih ((List.prefix_append ..).trans hpre) hbefore).step (hkeeps pre op hpre)
    intro seconds start hpause
    exact (hstep seconds start hpause).imp_left fun hover =>
      hover.trans (hlast op (by simp))

/-- A key without a pause at `t` grants a call of a rate that is large enough. -/
theorem exists_granted (hpaused : key.hash.paused ≤ t)
    (hts : ∀ level ∈ key.hash.level, level.ts < t) :
    ∃ rate, (key.step (.call rate t)).2 = true := by
  have hrate : ∃ rate, 1 ≤ key.hash.refilled rate rate t := by
    cases hlevel : key.hash.level with
    | none => exact ⟨1, by simp [Hash.refilled, hlevel]⟩
    | some level =>
      have hgap : 0 < t - level.ts := sub_pos.mpr (hts level hlevel)
      have hmax : max 0 (t - level.ts) = t - level.ts := max_eq_right hgap.le
      refine ⟨max 1 ((1 - level.tokens) / (t - level.ts)), ?_⟩
      simp only [Hash.refilled, hlevel, Option.getD_some, hmax]
      refine le_min (le_max_left ..) ?_
      have := mul_le_mul_of_nonneg_left
        (le_max_right 1 ((1 - level.tokens) / (t - level.ts))) hgap.le
      rw [mul_div_cancel₀ _ hgap.ne'] at this
      linarith
  obtain ⟨rate, htokens⟩ := hrate
  refine ⟨rate, ?_⟩
  rcases key.acquire_cases rate rate 1 t with ⟨h, -⟩ | ⟨-, ⟨h, -⟩ | ⟨-, hstep⟩⟩
  · exact absurd h hpaused.not_gt
  · exact absurd h htokens.not_gt
  · exact congrArg Prod.snd hstep

theorem clocked_level :
    Clocked Key.step Op.now (fun _ => True)
      fun t key => ∀ level ∈ key.hash.level, level.ts ≤ t := by
  constructor
  · exact fun h hle level hlevel => (h level hlevel).trans hle
  · intro key op h _
    cases op with
    | acquire capacity rate requested now =>
      rcases key.acquire_cases capacity rate requested now with
        ⟨-, hstep⟩ | ⟨-, ⟨-, hstep⟩ | ⟨-, hstep⟩⟩ <;> rw [hstep]
      · exact h
      · rintro _ ⟨⟩
        exact le_rfl
      · rintro _ ⟨⟩
        exact le_rfl
    | pause seconds now => exact h
    | expire now =>
      simp only [Key.step]
      split_ifs
      · rintro _ ⟨⟩
      · exact h

/-- A call in a pause that the state does not know of any more would be granted. -/
theorem not_honoured (hsorted : ops.Pairwise fun a b => a.now ≤ b.now)
    (hpre : pre ++ [op] <+: ops) {seconds start : ℚ} (hpause : .pause seconds start ∈ pre)
    (hlast : op.now < t) (hpaused : (after Key.step {} (pre ++ [op])).hash.paused ≤ t)
    (hforce : t < start + seconds) : ¬ Honoured ops := by
  intro h
  have hle := now_le_of_prefix hsorted hpre
  have hlevel : ∀ level ∈ (after Key.step {} (pre ++ [op])).hash.level, level.ts ≤ op.now :=
    clocked_level.run (fun _ _ hnone => nomatch hnone) (hsorted.sublist hpre.sublist)
      (fun _ _ => trivial) hle
  obtain ⟨rate, hgranted⟩ :=
    exists_granted hpaused fun level hmem => (hlevel level hmem).trans_lt hlast
  have hrefused := h _ hpre seconds start (List.mem_append_left _ hpause) rate rate 1 t
    (fun o ho => (hle o ho).trans hlast.le) hforce
  rw [Op.call, hrefused] at hgranted
  cases hgranted

theorem keeps_of_honoured (hsorted : ops.Pairwise fun a b => a.now ≤ b.now) (h : Honoured ops)
    (hpre : pre ++ [op] <+: ops) : Keeps pre op := by
  intro seconds start hpause hforce
  cases op with
  | acquire => trivial
  | pause seconds' now =>
    change start + seconds ≤ now + max seconds' 0
    by_contra! hends
    obtain ⟨t, hstart, hend⟩ := exists_between hends
    have : 0 ≤ max seconds' 0 := le_max_right ..
    refine not_honoured hsorted hpre hpause ?_ ?_ hend h
    · change now < t
      linarith
    · rw [after_append]
      exact hstart.le
  | expire now =>
    intro hold
    by_contra! hends
    obtain ⟨t, hstart, hend⟩ := exists_between (max_lt hforce hends)
    obtain ⟨hnow, hzero⟩ := max_lt_iff.mp hstart
    refine not_honoured hsorted hpre hpause hnow ?_ hend h
    rw [after_append, after_cons, after_nil, Key.step, if_pos hold]
    exact hzero.le

/-- All pauses of a run are honoured in full if and only if none is cut short: neither by a
pause that ends sooner, nor by the key's expiry. -/
theorem pauses_honoured_iff (hsorted : ops.Pairwise fun a b => a.now ≤ b.now) :
    Honoured ops ↔ ∀ pre op, pre ++ [op] <+: ops → Keeps pre op := by
  refine ⟨fun h pre op => keeps_of_honoured hsorted h, fun hkeeps => ?_⟩
  intro pre hpre seconds start hpause capacity rate requested now hlast hforce
  have hin := inForce_of_keeps hsorted hkeeps hpre hlast seconds start hpause
  exact refused_of_paused (hforce.trans_le (hin.resolve_left hforce.not_ge))

theorem pauses_honoured_iff_longer :
    [Op.pause 1 0, .pause 10 (1 / 2)].Pairwise (fun a b => a.now ≤ b.now) ∧
    (Honoured [.pause 1 0, .pause 10 (1 / 2)] ↔
      ∀ pre op, pre ++ [op] <+: [.pause 1 0, .pause 10 (1 / 2)] → Keeps pre op) := by
  have hsorted : [Op.pause 1 0, .pause 10 (1 / 2)].Pairwise fun a b => a.now ≤ b.now := by
    decide +kernel
  exact ⟨hsorted, pauses_honoured_iff hsorted⟩

/-- A pause of ten seconds ends after two, when another worker has asked for one second. -/
theorem long_pause_cut_short :
    [Op.pause 10 0, .pause 1 1, .call 1 2].Pairwise (fun a b => a.now ≤ b.now) ∧
    trace Key.step {} [.pause 10 0, .pause 1 1, .call 1 2] =
      [(.pause 10 0, false), (.pause 1 1, false), (.call 1 2, true)] ∧
    (2 : ℚ) < 0 + 10 := by
  decide +kernel

end BatchInference
