import BatchInference.Library.JobPool

/-!
# Jobs that run alone

A world is at rest when none of its jobs is busy. From there one job may run to its end while
the others stand still (`Solo`), then another one, and so on: this shows what can still be
reached, whatever has happened before. `Solo.reach` takes such a run of one job into the pool
and `Solo.reach_all` those of a list of jobs. In a serial run one job at most is busy, so that
the world is at rest as soon as this one is lost (`reach_rest`).
-/

namespace JobPool

namespace System

variable {σ κ ι ε : Type*}

/-- The job `k` runs from `s` to its end, in `s'`, and has then started the jobs `ks`. -/
inductive Solo (S : System σ κ ι ε) (busy : κ → Bool) (may : σ → κ → ι → Prop) :
    σ → κ → σ → List κ → Prop where
  | last {s s' : σ} {k : κ} {c : ι} {ks : List κ} (hmay : may s k c)
      (hstep : S.step c s k = some (s', ks)) (hks : ∀ j ∈ ks, busy j = false) :
      Solo S busy may s k s' ks
  | more {s s₁ s' : σ} {k k₁ : κ} {c : ι} {ks ks' : List κ} (hmay : may s k c)
      (hstep : S.step c s k = some (s₁, k₁ :: ks)) (hks : ∀ j ∈ ks, busy j = false)
      (hrest : Solo S busy may s₁ k₁ s' ks') : Solo S busy may s k s' (ks ++ ks')

/-- No job is busy. -/
def AtRest (busy : κ → Bool) (w : World σ κ) : Prop := ∀ j ∈ w.pool, busy j = false

variable {S : System σ κ ι ε} {busy touch : κ → Bool} {may : σ → κ → ι → Prop}
  {ok : World σ κ → Move ι ε → Prop} {w₀ w : World σ κ} {s s' : σ} {k : κ} {ks rest : List κ}

/-- The steps that `may` allows are moves of the pool when the other jobs are at rest. -/
def Admits (busy : κ → Bool) (may : σ → κ → ι → Prop) (ok : World σ κ → Move ι ε → Prop) :
    Prop :=
  ∀ v i k c, v.pool[i]? = some k → (∀ j ∈ others v i, busy j = false) → may v.shared k c →
    ok v (.act i c)

/-- One step of a job in the pool, the others at rest. -/
theorem reach_act {c : ι} (hadm : Admits busy may ok) (hpool : w.pool.Perm (k :: rest))
    (hrest : ∀ j ∈ rest, busy j = false) (hmay : may w.shared k c)
    (hstep : S.step c w.shared k = some (s', ks)) :
    ∃ w', S.Reach ok w w' ∧ w'.shared = s' ∧ w'.pool.Perm (rest ++ ks) := by
  obtain ⟨i, hi⟩ := List.getElem?_of_mem (hpool.mem_iff.mpr List.mem_cons_self)
  have hothers : (others w i).Perm rest :=
    List.perm_cons k |>.mp ((perm_others hi).symm.trans hpool)
  have hidle : ∀ j ∈ others w i, busy j = false := fun j hj => hrest j (hothers.mem_iff.mp hj)
  exact ⟨⟨s', others w i ++ ks⟩,
    .step .refl (hadm w i k c hi hidle hmay) (fire_act_iff.mpr ⟨k, _, hi, hstep, rfl⟩), rfl,
    hothers.append_right ks⟩

theorem Solo.reach (h : S.Solo busy may s k s' ks) (hadm : Admits busy may ok)
    (hs : w.shared = s) (hpool : w.pool.Perm (k :: rest))
    (hrest : ∀ j ∈ rest, busy j = false) :
    ∃ w', S.Reach ok w w' ∧ w'.shared = s' ∧ w'.pool.Perm (rest ++ ks) := by
  induction h generalizing w rest with
  | last hmay hstep hks =>
    subst hs
    exact reach_act hadm hpool hrest hmay hstep
  | @more s s₁ s' k k₁ c ks ks' hmay hstep hks hlater ih =>
    subst hs
    obtain ⟨w₁, hr₁, hs₁, hpool₁⟩ := reach_act hadm hpool hrest hmay hstep
    have hfront : w₁.pool.Perm (k₁ :: (rest ++ ks)) := hpool₁.trans List.perm_middle
    have hrest₁ : ∀ j ∈ rest ++ ks, busy j = false := by
      simpa only [List.forall_mem_append] using ⟨hrest, hks⟩
    obtain ⟨w', hr, hs', hpool'⟩ := ih hs₁ hfront hrest₁
    exact ⟨w', hr₁.trans hr, hs', by rwa [List.append_assoc] at hpool'⟩

theorem Solo.at_rest (h : S.Solo busy may s k s' ks) : ∀ j ∈ ks, busy j = false := by
  induction h with
  | last hmay hstep hks => exact hks
  | more hmay hstep hks hlater ih =>
    simpa only [List.forall_mem_append] using ⟨hks, ih⟩

/-- The jobs of a list run one after another; `A` is what holds while a list is left. -/
theorem Solo.reach_all {A : List κ → σ → Prop} {todo : List κ} (hadm : Admits busy may ok)
    (hsolo : ∀ v k todo, S.Reach ok w₀ v → A (k :: todo) v.shared → ∃ s' ks,
      S.Solo busy may v.shared k s' ks ∧ A todo s')
    (hw : S.Reach ok w₀ w) (hA : A todo w.shared) (hpool : w.pool.Perm (todo ++ rest))
    (hidle : AtRest busy w) :
    ∃ w' news, S.Reach ok w w' ∧ A [] w'.shared ∧ w'.pool.Perm (rest ++ news) ∧
      AtRest busy w' := by
  induction todo generalizing w rest with
  | nil => exact ⟨w, [], .refl, hA, by simpa using hpool, hidle⟩
  | cons k todo ih =>
    obtain ⟨s', ks, hrun, hnext⟩ := hsolo w k todo hw hA
    have hrest : ∀ j ∈ todo ++ rest, busy j = false := fun j hj =>
      hidle j (hpool.mem_iff.mpr (List.mem_cons_of_mem _ hj))
    obtain ⟨w₁, hr₁, hs₁, hpool₁⟩ := hrun.reach hadm rfl hpool hrest
    have hidle₁ : AtRest busy w₁ := fun j hj =>
      (List.mem_append.mp (hpool₁.mem_iff.mp hj)).elim (hrest j) (hrun.at_rest j)
    have hfront : w₁.pool.Perm (todo ++ (rest ++ ks)) :=
      hpool₁.trans (List.append_assoc todo rest ks ▸ .refl _)
    obtain ⟨w', news, hr, hA', hpool', hidle'⟩ := ih (hw.trans hr₁) (hs₁ ▸ hnext) hfront hidle₁
    exact ⟨w', ks ++ news, hr₁.trans hr, hA', by rwa [List.append_assoc] at hpool', hidle'⟩

/-! ## Serial runs -/

/-- A step leaves one busy job at most, and this only where the job that moves has a claim. -/
structure SingleTrack (S : System σ κ ι ε) (busy touch : κ → Bool) : Prop where
  step : ∀ {c s k s' ks}, S.step c s k = some (s', ks) → ks.countP busy ≤ 1 ∧
    (touch k = false → ∀ j ∈ ks, busy j = false)
  env : ∀ {e s s' ks}, S.env e s = some (s', ks) → ∀ j ∈ ks, busy j = false

theorem countP_eq_zero_iff_rest {ks : List κ} :
    ks.countP busy = 0 ↔ ∀ j ∈ ks, busy j = false := by
  simp [List.countP_eq_zero]

theorem SingleTrack.countP_le_one (h : S.SingleTrack busy touch)
    (hr : S.Reach (Serial busy touch) w₀ w) (h₀ : w₀.pool.countP busy ≤ 1) :
    w.pool.countP busy ≤ 1 := by
  refine Reach.invariant (A := fun _ => True) (P := fun v => v.pool.countP busy ≤ 1)
    (fun _ _ => trivial) h₀ (fun v m v' _ hv hm hf => ?_) hr
  cases m with
  | act i c =>
    obtain ⟨k, ⟨s', ks⟩, hk, hstep, rfl⟩ := fire_act_iff.mp hf
    obtain ⟨hone, hnone⟩ := h.step hstep
    have hothers : (others v i).countP busy ≤ v.pool.countP busy :=
      (List.eraseIdx_sublist _ _).countP_le
    rw [List.countP_append]
    cases ht : touch k with
    | true => rwa [countP_eq_zero_iff_rest.mpr (hm k hk ht), Nat.zero_add]
    | false =>
      rw [countP_eq_zero_iff_rest.mpr (hnone ht), Nat.add_zero]
      exact Nat.le_trans hothers hv
  | env e =>
    obtain ⟨⟨s', ks⟩, hstep, rfl⟩ := fire_env_iff.mp hf
    rw [List.countP_append, countP_eq_zero_iff_rest.mpr (h.env hstep)]
    exact hv

/-- Only one job is busy at most: when it is lost, the world is at rest. -/
theorem reach_rest (lose : ι) (hone : w.pool.countP busy ≤ 1) (hadm : Admits busy may ok)
    (hlose : ∀ s k, busy k = true → may s k lose ∧ ∃ ks, S.step lose s k = some (s, ks) ∧
      ∀ j ∈ ks, busy j = false) :
    ∃ w', S.Reach ok w w' ∧ w'.shared = w.shared ∧ AtRest busy w' := by
  by_cases hidle : AtRest busy w
  · exact ⟨w, .refl, rfl, hidle⟩
  · simp only [AtRest, not_forall, Bool.not_eq_false] at hidle
    obtain ⟨k, hk, hbusy⟩ := hidle
    obtain ⟨i, hi⟩ := List.getElem?_of_mem hk
    have hperm := perm_others hi
    have hrest : ∀ j ∈ others w i, busy j = false := by
      rw [hperm.countP_eq, List.countP_cons_of_pos hbusy] at hone
      exact countP_eq_zero_iff_rest.mp (by omega)
    obtain ⟨hmay, ks, hstep, hks⟩ := hlose w.shared k hbusy
    obtain ⟨w', hr, hs, hpool⟩ := reach_act hadm hperm hrest hmay hstep
    exact ⟨w', hr, hs, fun j hj =>
      (List.mem_append.mp (hpool.mem_iff.mp hj)).elim (hrest j) (hks j)⟩

end System

end JobPool
