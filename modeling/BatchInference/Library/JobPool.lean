import Mathlib.Data.List.Basic
import Mathlib.Data.List.Perm.Basic

/-!
# Pools of jobs over one shared state

A pool is a list of jobs, each a program counter with its locals. One move lets one job
take one step: it may change the shared state, and it is replaced by the jobs it goes on
as and the jobs it has started (none when it ends). An environment move changes the shared
state and adds jobs. `Reach` fixes no scheduler; an assumption on the environment or on
the schedule is the predicate `ok` on moves.

Three proof rules are provided. `Reach.invariant` is plain induction. `Modular.reach` is
the thread-modular rule: each job keeps its own assertion and does not break the others'.
`Baton.reach` shows that some job is always left to carry on.
-/

namespace JobPool

variable {σ κ ι ε : Type*}

/-- `ι` resolves what a job's step leaves open, `ε` are the environment's moves. -/
structure System (σ κ ι ε : Type*) where
  step : ι → σ → κ → Option (σ × List κ)
  env : ε → σ → Option (σ × List κ)

structure World (σ κ : Type*) where
  shared : σ
  pool : List κ

inductive Move (ι ε : Type*) where
  | act (i : Nat) (choice : ι)
  | env (e : ε)
  deriving DecidableEq, Repr

namespace System

variable (S : System σ κ ι ε)

/-- The jobs other than the one at position `i`. -/
def others (w : World σ κ) (i : Nat) : List κ := w.pool.eraseIdx i

def fire (w : World σ κ) : Move ι ε → Option (World σ κ)
  | .act i c => w.pool[i]?.bind fun k =>
      (S.step c w.shared k).map fun r => ⟨r.1, others w i ++ r.2⟩
  | .env e => (S.env e w.shared).map fun r => ⟨r.1, w.pool ++ r.2⟩

/-- The worlds reached from `w₀` by moves that meet `ok`. -/
inductive Reach (ok : World σ κ → Move ι ε → Prop) (w₀ : World σ κ) : World σ κ → Prop where
  | refl : Reach ok w₀ w₀
  | step {w w' : World σ κ} {m : Move ι ε} :
      Reach ok w₀ w → ok w m → S.fire w m = some w' → Reach ok w₀ w'

variable {S} {ok ok' : World σ κ → Move ι ε → Prop} {w₀ w w' : World σ κ}

theorem mem_of_mem_others {i : Nat} {k : κ} (h : k ∈ others w i) : k ∈ w.pool :=
  List.mem_of_mem_eraseIdx h

theorem perm_others {i : Nat} {k : κ} (h : w.pool[i]? = some k) :
    w.pool.Perm (k :: others w i) := by
  obtain ⟨hi, rfl⟩ := List.getElem?_eq_some_iff.mp h
  exact (List.getElem_cons_eraseIdx_perm hi).symm

/-- The jobs of a kind, without one of another kind. -/
theorem filter_others_of_not {i : Nat} {k : κ} {p : κ → Bool} (h : w.pool[i]? = some k)
    (hk : p k = false) : (others w i).filter p = w.pool.filter p := by
  obtain ⟨hi, rfl⟩ := List.getElem?_eq_some_iff.mp h
  rw [others, List.eraseIdx_eq_take_drop_succ, List.filter_append]
  conv_rhs => rw [← List.take_append_drop i w.pool, List.drop_eq_getElem_cons hi]
  rw [List.filter_append, List.filter_cons_of_neg (by simp [hk])]

/-- A job moves among those of its kind as it does among all. -/
theorem exists_filter_others {i : Nat} {k : κ} {p : κ → Bool} (h : w.pool[i]? = some k)
    (hk : p k = true) : ∃ j, (w.pool.filter p)[j]? = some k ∧
      (w.pool.filter p).eraseIdx j = (others w i).filter p := by
  obtain ⟨hi, rfl⟩ := List.getElem?_eq_some_iff.mp h
  have hsplit : w.pool = w.pool.take i ++ w.pool[i] :: w.pool.drop (i + 1) := by
    rw [← List.drop_eq_getElem_cons hi, List.take_append_drop]
  have hothers : others w i = w.pool.take i ++ w.pool.drop (i + 1) :=
    List.eraseIdx_eq_take_drop_succ ..
  have hfilter : w.pool.filter p = (w.pool.take i).filter p ++
      w.pool[i] :: (w.pool.drop (i + 1)).filter p := by
    conv_lhs => rw [hsplit]
    rw [List.filter_append, List.filter_cons_of_pos hk]
  refine ⟨((w.pool.take i).filter p).length, ?_, ?_⟩
  · rw [hfilter, List.getElem?_append_right (Nat.le_refl _), Nat.sub_self,
      List.getElem?_cons_zero]
  · rw [hfilter, hothers, List.filter_append,
      List.eraseIdx_append_of_length_le (Nat.le_refl _),
      Nat.sub_self, List.eraseIdx_cons_zero]

/-- The only job of its kind is gone when it has moved. -/
theorem filter_others_of_single {i : Nat} {k g : κ} {p : κ → Bool} (h : w.pool[i]? = some k)
    (hk : p k = true) (hone : w.pool.filter p = [g]) : k = g ∧ (others w i).filter p = [] := by
  have hperm := (perm_others h).filter p
  rw [hone, List.filter_cons_of_pos hk] at hperm
  obtain ⟨rfl, hnone⟩ := List.cons.inj (List.perm_singleton.mp hperm.symm)
  exact ⟨rfl, hnone⟩

/-- What replacing a job by another one does to a count. -/
theorem countP_replace {i : Nat} {k : κ} (h : w.pool[i]? = some k) (j : κ) (p : κ → Bool) :
    (others w i ++ [j]).countP p + (p k).toNat = w.pool.countP p + (p j).toNat := by
  rw [(perm_others h).countP_eq]
  simp only [List.countP_append, List.countP_cons, List.countP_nil]
  cases p k <;> cases p j <;> simp

theorem mem_iff_others {i : Nat} {k : κ} (h : w.pool[i]? = some k) (j : κ) :
    j ∈ w.pool ↔ j = k ∨ j ∈ others w i := by
  simpa using (perm_others h).mem_iff

theorem fire_act_iff {i : Nat} {c : ι} : S.fire w (.act i c) = some w' ↔
    ∃ k r, w.pool[i]? = some k ∧ S.step c w.shared k = some r ∧
      w' = ⟨r.1, others w i ++ r.2⟩ := by
  simp [fire, Option.bind_eq_some_iff, eq_comm (a := w')]

theorem fire_env_iff {e : ε} : S.fire w (.env e) = some w' ↔
    ∃ r, S.env e w.shared = some r ∧ w' = ⟨r.1, w.pool ++ r.2⟩ := by
  simp [fire, eq_comm (a := w')]

theorem others_last (s : σ) (pool : List κ) (k : κ) :
    others (⟨s, pool ++ [k]⟩ : World σ κ) pool.length = pool := by
  rw [others, List.eraseIdx_append_of_length_le (Nat.le_refl _), Nat.sub_self,
    List.eraseIdx_cons_zero, List.append_nil]

/-- The job that has come last moves. -/
theorem fire_last {s : σ} {k : κ} {c : ι} {r : σ × List κ} (pool : List κ)
    (h : S.step c s k = some r) :
    S.fire ⟨s, pool ++ [k]⟩ (.act pool.length c) = some ⟨r.1, pool ++ r.2⟩ := by
  rw [fire, others_last, List.getElem?_append_right (Nat.le_refl _), Nat.sub_self,
    List.getElem?_cons_zero, Option.bind_some, h, Option.map_some]

theorem Reach.mono (h : S.Reach ok w₀ w) (hok : ∀ w m, ok w m → ok' w m) :
    S.Reach ok' w₀ w := by
  induction h with
  | refl => exact .refl
  | step _ hm hf ih => exact .step ih (hok _ _ hm) hf

theorem Reach.trans {u : World σ κ} (h : S.Reach ok w₀ u) (g : S.Reach ok u w) :
    S.Reach ok w₀ w := by
  induction g with
  | refl => exact h
  | step _ hm hf ih => exact .step ih hm hf

/-- A system simulates another one if each step of the other one is answered by a run, which
may be empty. -/
theorem Reach.simulated {σ' κ' ι' ε' : Type*} {T : System σ' κ' ι' ε'}
    {okT : World σ' κ' → Move ι' ε' → Prop} {R : World σ κ → World σ' κ' → Prop}
    (hs : ∀ w m w' u, R w u → ok w m → S.fire w m = some w' →
      ∃ u', T.Reach okT u u' ∧ R w' u')
    {u : World σ' κ'} (hR : R w u) (h : S.Reach ok w w') : ∃ u', T.Reach okT u u' ∧ R w' u' := by
  induction h with
  | refl => exact ⟨u, .refl, hR⟩
  | step _ hm hf ih =>
    obtain ⟨v, hv, hRv⟩ := ih
    obtain ⟨u', hu', hRu'⟩ := hs _ _ _ _ hRv hm hf
    exact ⟨u', hv.trans hu', hRu'⟩

/-- What holds in every reached world may be assumed of each step. -/
theorem Reach.and {A : World σ κ → Prop} (h : S.Reach ok w₀ w)
    (hA : ∀ v, S.Reach ok w₀ v → A v) : S.Reach (fun v m => ok v m ∧ A v) w₀ w := by
  induction h with
  | refl => exact .refl
  | step hr hm hf ih => exact .step ih ⟨hm, hA _ hr⟩ hf

/-- Plain induction over a run; `A` holds in every reached world and may be used. -/
theorem Reach.invariant {A P : World σ κ → Prop} (hA : ∀ w, S.Reach ok w₀ w → A w)
    (h₀ : P w₀)
    (hs : ∀ w m w', A w → P w → ok w m → S.fire w m = some w' → P w')
    (h : S.Reach ok w₀ w) : P w := by
  induction h with
  | refl => exact h₀
  | step hr hm hf ih => exact hs _ _ _ (hA _ hr) ih hm hf

/-- If every world of `P` that is not in `Q` has a move to a smaller world of `P`, then `Q` is
reached. -/
theorem Reach.exists_of_measure {P Q : World σ κ → Prop} (μ : World σ κ → Nat)
    (h : ∀ v, P v → Q v ∨ ∃ m v', ok v m ∧ S.fire v m = some v' ∧ P v' ∧ μ v' < μ v)
    (hP : P w) : ∃ v, S.Reach ok w v ∧ Q v := by
  induction hn : μ w using Nat.strongRecOn generalizing w with
  | ind n ih =>
    rcases h w hP with hQ | ⟨m, v', hm, hf, hP', hlt⟩
    · exact ⟨w, .refl, hQ⟩
    · obtain ⟨v, hr, hQ⟩ := ih _ (hn ▸ hlt) hP' rfl
      exact ⟨v, (Reach.step .refl hm hf).trans hr, hQ⟩

/-! ## Runs given by their moves -/

/-- Every step of the run of `ms` from `w` meets `P`. -/
def Along (P : World σ κ → Move ι ε → World σ κ → Prop) :
    World σ κ → List (Move ι ε) → Prop
  | _, [] => True
  | w, m :: ms => ∀ w', S.fire w m = some w' → P w m w' ∧ Along P w' ms

theorem Along.of_forall {P : World σ κ → Move ι ε → World σ κ → Prop} {ms : List (Move ι ε)}
    (h : ∀ v m v', P v m v') : S.Along P w ms := by
  induction ms generalizing w with
  | nil => trivial
  | cons m ms ih => exact fun w' _ => ⟨h w m w', ih⟩

/-- A property that its moves have wherever they are made. -/
theorem Along.of_mem {P : World σ κ → Move ι ε → Prop} {ms : List (Move ι ε)}
    (hr : S.Reach (fun _ _ => True) w₀ w)
    (h : ∀ m ∈ ms, ∀ v, S.Reach (fun _ _ => True) w₀ v → P v m) :
    S.Along (fun v m _ => P v m) w ms := by
  induction ms generalizing w with
  | nil => trivial
  | cons m ms ih =>
    rw [List.forall_mem_cons] at h
    exact fun w' hf => ⟨h.1 w hr, ih (.step hr trivial hf) h.2⟩

theorem Along.imp {P P' : World σ κ → Move ι ε → World σ κ → Prop} {ms : List (Move ι ε)}
    (h : S.Along P w ms) (hP : ∀ v m v', S.fire v m = some v' → P v m v' → P' v m v') :
    S.Along P' w ms := by
  induction ms generalizing w with
  | nil => trivial
  | cons m ms ih => exact fun w' hf => ⟨hP _ _ _ hf (h w' hf).1, ih (h w' hf).2⟩

theorem Along.mono {P P' : World σ κ → Move ι ε → World σ κ → Prop} {ms : List (Move ι ε)}
    (h : S.Along P w ms) (hP : ∀ v m v', P v m v' → P' v m v') : S.Along P' w ms :=
  h.imp fun v m v' _ => hP v m v'

/-- If each step from a world in `Q` has the property and stays in `Q`, all steps have it. -/
theorem Along.of_invariant {P : World σ κ → Move ι ε → World σ κ → Prop} {Q : World σ κ → Prop}
    {ms : List (Move ι ε)} (hok : S.Along (fun v m _ => ok v m) w ms) (h₀ : Q w)
    (hs : ∀ v m v', Q v → ok v m → S.fire v m = some v' → P v m v' ∧ Q v') :
    S.Along P w ms := by
  induction ms generalizing w with
  | nil => trivial
  | cons m ms ih =>
    intro w' hf
    obtain ⟨hm, hrest⟩ := hok w' hf
    obtain ⟨hP, hQ⟩ := hs w m w' h₀ hm hf
    exact ⟨hP, ih hrest hQ⟩

/-- Two properties of steps hold of the same runs, if they agree on each step from a world
in `Q`, and if a step with them stays in `Q`. -/
theorem Along.congr {P P' : World σ κ → Move ι ε → World σ κ → Prop} {Q : World σ κ → Prop}
    {ms : List (Move ι ε)} (hok : S.Along (fun v m _ => ok v m) w ms) (h₀ : Q w)
    (hs : ∀ v m v', Q v → ok v m → S.fire v m = some v' →
      (P v m v' ↔ P' v m v') ∧ (P v m v' → Q v')) :
    S.Along P w ms ↔ S.Along P' w ms := by
  induction ms generalizing w with
  | nil => exact Iff.rfl
  | cons m ms ih =>
    refine forall_congr' fun w' => forall_congr' fun hf => ?_
    obtain ⟨hm, hrest⟩ := hok w' hf
    obtain ⟨hiff, hQ⟩ := hs w m w' h₀ hm hf
    exact ⟨fun ⟨hP, h⟩ => ⟨hiff.mp hP, (ih hrest (hQ hP)).mp h⟩,
      fun ⟨hP', h⟩ => ⟨hiff.mpr hP', (ih hrest (hQ (hiff.mpr hP'))).mpr h⟩⟩

/-- The run of the given moves, stopped by one that does not meet `ok`. -/
def run (S : System σ κ ι ε) (ok : World σ κ → Move ι ε → Prop) [DecidableRel ok] :
    World σ κ → List (Move ι ε) → Option (World σ κ)
  | w, [] => some w
  | w, m :: ms => if ok w m then (S.fire w m).bind fun w' => run S ok w' ms else none

theorem run_cons_iff [DecidableRel ok] {m : Move ι ε} {ms : List (Move ι ε)} :
    S.run ok w (m :: ms) = some w' ↔
      ok w m ∧ ∃ u, S.fire w m = some u ∧ S.run ok u ms = some w' := by
  rw [run]
  split
  · rename_i hm
    simp [hm, Option.bind_eq_some_iff]
  · rename_i hm
    simp [hm]

theorem Reach.of_run [DecidableRel ok] {ms : List (Move ι ε)}
    (h : S.run ok w ms = some w') : S.Reach ok w w' := by
  induction ms generalizing w with
  | nil => exact Option.some.inj h ▸ .refl
  | cons m ms ih =>
    obtain ⟨hm, u, hu, hrest⟩ := run_cons_iff.mp h
    exact (Reach.step .refl hm hu).trans (ih hrest)

theorem Along.of_run [DecidableRel ok] {ms : List (Move ι ε)} (h : S.run ok w ms = some w') :
    S.Along (fun v m _ => ok v m) w ms := by
  induction ms generalizing w with
  | nil => trivial
  | cons m ms ih =>
    obtain ⟨hm, u, hu, hrest⟩ := run_cons_iff.mp h
    intro v hv
    obtain rfl := Option.some.inj (hu.symm.trans hv)
    exact ⟨hm, ih hrest⟩

theorem Along.reach [DecidableRel ok] {P : World σ κ → Move ι ε → Prop} {ms : List (Move ι ε)}
    (h : S.Along (fun v m _ => P v m) w ms) (hr : S.run ok w ms = some w') :
    S.Reach (fun v m => ok v m ∧ P v m) w w' := by
  induction ms generalizing w with
  | nil => exact Option.some.inj hr ▸ .refl
  | cons m ms ih =>
    obtain ⟨hm, u, hu, hrest⟩ := run_cons_iff.mp hr
    obtain ⟨hP, h⟩ := h u hu
    exact (Reach.step .refl ⟨hm, hP⟩ hu).trans (ih h hrest)

theorem run_append [DecidableRel ok] {ms ns : List (Move ι ε)} :
    S.run ok w (ms ++ ns) = (S.run ok w ms).bind fun u => S.run ok u ns := by
  induction ms generalizing w with
  | nil => rfl
  | cons m ms ih =>
    rw [List.cons_append, run, run]
    split
    · rw [Option.bind_assoc]
      exact congrArg _ (funext fun u => ih)
    · rfl

/-- A potential that every counted move lowers bounds their number. -/
theorem countP_le_of_potential [DecidableRel ok] {P : World σ κ → Prop} {μ : World σ κ → Nat}
    {counted : Move ι ε → Bool} {ms : List (Move ι ε)}
    (hs : ∀ v m v', P v → ok v m → S.fire v m = some v' →
      P v' ∧ μ v' + (counted m).toNat ≤ μ v)
    (h₀ : P w) (hr : S.run ok w ms = some w') : P w' ∧ μ w' + ms.countP counted ≤ μ w := by
  induction ms generalizing w with
  | nil => exact Option.some.inj hr ▸ ⟨h₀, by simp⟩
  | cons m ms ih =>
    obtain ⟨hm, u, hu, hrest⟩ := run_cons_iff.mp hr
    obtain ⟨hP, hle⟩ := hs w m u h₀ hm hu
    obtain ⟨hP', hle'⟩ := ih hP hrest
    have hcount : (if counted m = true then 1 else 0) = (counted m).toNat := by
      cases counted m <;> rfl
    rw [List.countP_cons, hcount]
    exact ⟨hP', by omega⟩

/-- Two worlds of one run, and what is seen of them. -/
theorem Reach.of_run_append [DecidableRel ok] {α : Type*} (f : World σ κ → α) {a b : α}
    (ms ns : List (Move ι ε)) (ha : (S.run ok w ms).map f = some a)
    (hb : (S.run ok w (ms ++ ns)).map f = some b) :
    ∃ u v, S.Reach ok w u ∧ f u = a ∧ S.Reach ok u v ∧ f v = b := by
  obtain ⟨u, hu, rfl⟩ := Option.map_eq_some_iff.mp ha
  obtain ⟨v, hv, rfl⟩ := Option.map_eq_some_iff.mp hb
  rw [run_append, hu, Option.bind_some] at hv
  exact ⟨u, v, .of_run hu, rfl, .of_run hv, rfl⟩

/-- A run with one more move, and what is seen on both sides of it. -/
theorem Reach.of_run_fire [DecidableRel ok] {α : Type*} (f : World σ κ → World σ κ → α) {a : α}
    (ms : List (Move ι ε)) (m : Move ι ε)
    (h : ((S.run ok w ms).bind fun u => (S.fire u m).map (f u)) = some a) :
    ∃ u v, S.Reach ok w u ∧ S.fire u m = some v ∧ f u v = a := by
  obtain ⟨u, hu, h⟩ := Option.bind_eq_some_iff.mp h
  obtain ⟨v, hv, rfl⟩ := Option.map_eq_some_iff.mp h
  exact ⟨u, v, .of_run hu, hv, rfl⟩

variable (S) in
/-- Some step of the run of `ms` from `w` meets `P`. -/
def Sometime (P : World σ κ → Move ι ε → Prop) : World σ κ → List (Move ι ε) → Prop
  | _, [] => False
  | w, m :: ms => P w m ∨ ∃ w', S.fire w m = some w' ∧ Sometime P w' ms

theorem Sometime.reach [DecidableRel ok] {P : World σ κ → Move ι ε → Prop}
    {ms : List (Move ι ε)} (h : S.Sometime P w ms) (hr : S.run ok w ms = some w') :
    ∃ v m u, S.Reach ok w v ∧ ok v m ∧ P v m ∧ S.fire v m = some u ∧ S.Reach ok u w' := by
  induction ms generalizing w with
  | nil => cases h
  | cons m ms ih =>
    obtain ⟨hm, u, hu, hrest⟩ := run_cons_iff.mp hr
    rcases h with hP | ⟨u', hu', h⟩
    · exact ⟨w, m, u, .refl, hm, hP, hu, .of_run hrest⟩
    · obtain rfl := Option.some.inj (hu.symm.trans hu')
      obtain ⟨v, m', u', hv, hm', hP, hu', hw⟩ := ih h hrest
      exact ⟨v, m', u', (Reach.step .refl hm hu).trans hv, hm', hP, hu', hw⟩

/-- What is kept by the steps that do not meet `P` holds in the end, or else some step has
met `P`. -/
theorem Sometime.or_kept [DecidableRel ok] {P : World σ κ → Move ι ε → Prop}
    {Q : World σ κ → Prop} {ms : List (Move ι ε)} (h₀ : Q w) (hr : S.run ok w ms = some w')
    (hs : ∀ v m v', Q v → ok v m → ¬ P v m → S.fire v m = some v' → Q v') :
    S.Sometime P w ms ∨ Q w' := by
  induction ms generalizing w with
  | nil => exact .inr (Option.some.inj hr ▸ h₀)
  | cons m ms ih =>
    obtain ⟨hm, u, hu, hrest⟩ := run_cons_iff.mp hr
    by_cases hP : P w m
    · exact .inl (.inl hP)
    · rcases ih (hs w m u h₀ hm hP hu) hrest with h | h
      · exact .inl (.inr ⟨u, hu, h⟩)
      · exact .inr h

theorem Along.of_not_sometime {P : World σ κ → Move ι ε → Prop} {ms : List (Move ι ε)}
    (h : ¬ S.Sometime P w ms) : S.Along (fun v m _ => ¬ P v m) w ms := by
  induction ms generalizing w with
  | nil => trivial
  | cons m ms ih =>
    intro w' hf
    exact ⟨fun hP => h (.inl hP), ih fun hlater => h (.inr ⟨w', hf, hlater⟩)⟩

theorem Sometime.not_of_run {P : World σ κ → Move ι ε → Prop}
    [DecidableRel fun v m => ¬ P v m] {ms : List (Move ι ε)}
    (hr : S.run (fun v m => ¬ P v m) w ms = some w') : ¬ S.Sometime P w ms := by
  induction ms generalizing w with
  | nil => exact id
  | cons m ms ih =>
    obtain ⟨hm, u, hu, hrest⟩ := run_cons_iff.mp hr
    rintro (hP | ⟨v, hv, h⟩)
    · exact hm hP
    · obtain rfl := Option.some.inj (hu.symm.trans hv)
      exact ih hrest h

theorem Along.last [DecidableRel ok] {Q : World σ κ → Prop} {ms : List (Move ι ε)}
    (h : S.Along (fun _ _ v => Q v) w ms) (h₀ : Q w) (hr : S.run ok w ms = some w') :
    Q w' := by
  induction ms generalizing w with
  | nil => exact Option.some.inj hr ▸ h₀
  | cons m ms ih =>
    obtain ⟨-, u, hu, hrest⟩ := run_cons_iff.mp hr
    obtain ⟨hQ, h⟩ := h u hu
    exact ih h hQ hrest

/-- Induction over the run of given moves. -/
theorem Along.invariant [DecidableRel ok'] {A : World σ κ → Prop} {ms : List (Move ι ε)}
    (hok : S.Along (fun v m _ => ok v m) w ms) (hr : S.run ok' w ms = some w') (h₀ : A w)
    (hA : ∀ v m v', A v → ok v m → S.fire v m = some v' → A v') : A w' := by
  induction ms generalizing w with
  | nil => exact Option.some.inj hr ▸ h₀
  | cons m ms ih =>
    obtain ⟨-, u, hu, hrest⟩ := run_cons_iff.mp hr
    obtain ⟨hm, hlater⟩ := hok u hu
    exact ih hlater hrest (hA w m u h₀ hm hu)

/-- If a step without `P` leads to where no step leads out of again, and if the run does not
end there, then all its steps have `P`. -/
theorem Along.of_trap [DecidableRel ok'] {P : World σ κ → Move ι ε → Prop}
    {A Q : World σ κ → Prop} {ms : List (Move ι ε)} (hok : S.Along (fun v m _ => ok v m) w ms)
    (hr : S.run ok' w ms = some w') (h₀ : A w)
    (hA : ∀ v m v', A v → ok v m → S.fire v m = some v' → A v')
    (hin : ∀ v m v', A v → ok v m → ¬ P v m → S.fire v m = some v' → Q v')
    (hstay : ∀ v m v', Q v → ok v m → S.fire v m = some v' → Q v') (hout : ¬ Q w') :
    S.Along (fun v m _ => P v m) w ms := by
  induction ms generalizing w with
  | nil => trivial
  | cons m ms ih =>
    obtain ⟨-, u, hu, hrest⟩ := run_cons_iff.mp hr
    intro v hv
    obtain rfl := Option.some.inj (hu.symm.trans hv)
    obtain ⟨hm, hlater⟩ := hok u hu
    refine ⟨?_, ih hlater hrest (hA w m u h₀ hm hu)⟩
    by_contra hP
    exact hout (hlater.invariant hrest (hin w m u h₀ hm hP hu) hstay)

variable (S) in
/-- How many steps of the run of `ms` from `w` meet `P`. -/
def count (P : World σ κ → Move ι ε → Bool) : World σ κ → List (Move ι ε) → ℕ
  | _, [] => 0
  | w, m :: ms => (P w m).toNat + (S.fire w m).elim 0 fun w' => count P w' ms

/-- What the steps with `P` take from a balance `B` is there before, or comes with steps with
`G`. -/
theorem Along.count_le [DecidableRel ok'] {P G : World σ κ → Move ι ε → Bool}
    {B : World σ κ → ℕ} {ms : List (Move ι ε)} (hok : S.Along (fun v m _ => ok v m) w ms)
    (hr : S.run ok' w ms = some w')
    (hs : ∀ v m v', ok v m → S.fire v m = some v' →
      B v' + (P v m).toNat ≤ B v + (G v m).toNat) :
    B w' + S.count P w ms ≤ B w + S.count G w ms := by
  induction ms generalizing w with
  | nil =>
    obtain rfl := Option.some.inj hr
    exact Nat.le_refl _
  | cons m ms ih =>
    obtain ⟨-, u, hu, hrest⟩ := run_cons_iff.mp hr
    obtain ⟨hm, hlater⟩ := hok u hu
    have hstep := hs w m u hm hu
    have hrun := ih hlater hrest
    simp only [count, hu, Option.elim_some]
    omega

/-- Induction over a run, with the number of its steps that meet `P`. -/
theorem count_invariant [DecidableRel ok] {P : World σ κ → Move ι ε → Bool}
    {I : ℕ → World σ κ → Prop} {ms : List (Move ι ε)} (hr : S.run ok w ms = some w') (h₀ : I 0 w)
    (hs : ∀ n v m v', I n v → ok v m → S.fire v m = some v' → I (n + (P v m).toNat) v') :
    I (S.count P w ms) w' := by
  suffices h : ∀ n, I n w → I (n + S.count P w ms) w' by simpa using h 0 h₀
  clear h₀
  induction ms generalizing w with
  | nil =>
    obtain rfl := Option.some.inj hr
    exact fun n h => h
  | cons m ms ih =>
    obtain ⟨hm, u, hu, hrest⟩ := run_cons_iff.mp hr
    intro n h
    have hrun := ih hrest _ (hs n w m u h hm hu)
    rwa [Nat.add_assoc, show (P w m).toNat + S.count P u ms = S.count P w (m :: ms) by
      simp [count, hu]] at hrun

theorem Along.and {P P' : World σ κ → Move ι ε → World σ κ → Prop} {ms : List (Move ι ε)}
    (h : S.Along P w ms) (h' : S.Along P' w ms) :
    S.Along (fun v m u => P v m u ∧ P' v m u) w ms := by
  induction ms generalizing w with
  | nil => trivial
  | cons m ms ih =>
    exact fun u hu => ⟨⟨(h u hu).1, (h' u hu).1⟩, ih (h u hu).2 (h' u hu).2⟩

theorem Along.of_forall_mem {P : Move ι ε → Prop} {ms : List (Move ι ε)} (h : ∀ m ∈ ms, P m) :
    S.Along (fun _ m _ => P m) w ms := by
  induction ms generalizing w with
  | nil => trivial
  | cons m ms ih =>
    rw [List.forall_mem_cons] at h
    exact fun u _ => ⟨h.1, ih h.2⟩

theorem Along.left {P : World σ κ → Move ι ε → World σ κ → Prop} {ms ns : List (Move ι ε)}
    (h : S.Along P w (ms ++ ns)) : S.Along P w ms := by
  induction ms generalizing w with
  | nil => trivial
  | cons m ms ih => exact fun u hu => ⟨(h u hu).1, ih (h u hu).2⟩

theorem Along.right [DecidableRel ok'] {P : World σ κ → Move ι ε → World σ κ → Prop}
    {u : World σ κ} {ms ns : List (Move ι ε)} (h : S.Along P w (ms ++ ns))
    (hr : S.run ok' w ms = some u) : S.Along P u ns := by
  induction ms generalizing w with
  | nil => exact Option.some.inj hr ▸ h
  | cons m ms ih =>
    obtain ⟨-, v, hv, hrest⟩ := run_cons_iff.mp hr
    exact ih (h v hv).2 hrest

/-! ## What is seen of a run -/

variable (S) in
/-- What is seen of the steps of the run of `ms`, in their order. -/
def log {α : Type*} (see : World σ κ → Move ι ε → List α) : World σ κ → List (Move ι ε) → List α
  | _, [] => []
  | w, m :: ms => (S.fire w m).elim [] fun w' => see w m ++ log see w' ms

/-- Induction over a run, with what has been seen of it. -/
theorem log_invariant [DecidableRel ok] {α : Type*} {see : World σ κ → Move ι ε → List α}
    {I : World σ κ → List α → Prop} {seen : List α} {ms : List (Move ι ε)} (h₀ : I w seen)
    (hs : ∀ v m v' l, I v l → ok v m → S.fire v m = some v' → I v' (l ++ see v m))
    (hr : S.run ok w ms = some w') : I w' (seen ++ S.log see w ms) := by
  induction ms generalizing w seen with
  | nil =>
    obtain rfl := Option.some.inj hr
    rwa [log, List.append_nil]
  | cons m ms ih =>
    obtain ⟨hm, u, hu, hrest⟩ := run_cons_iff.mp hr
    rw [log, hu, Option.elim_some, ← List.append_assoc]
    exact ih (hs _ _ _ _ h₀ hm hu) hrest

/-- Every step changes a number by what it is counted for, if and only if the number is, after
every part of the run, what it was and the count. -/
theorem Along.count_iff {P : World σ κ → Move ι ε → Bool} {f : World σ κ → ℕ}
    {ms : List (Move ι ε)} :
    S.Along (fun v m v' => f v' = f v + (P v m).toNat) w ms ↔
      ∀ ms₁ v, ms₁ <+: ms → S.run (fun _ _ => True) w ms₁ = some v →
        f v = f w + S.count P w ms₁ := by
  induction ms generalizing w with
  | nil =>
    refine iff_of_true trivial fun ms₁ v hpre hr => ?_
    obtain rfl := List.prefix_nil.mp hpre
    exact Option.some.inj hr ▸ rfl
  | cons m ms ih =>
    constructor
    · intro h ms₁ v hpre hr
      rcases ms₁ with _ | ⟨m₁, ms₁⟩
      · exact Option.some.inj hr ▸ rfl
      · obtain ⟨rfl, hshort⟩ := List.cons_prefix_cons.mp hpre
        obtain ⟨-, u, hu, hrest⟩ := run_cons_iff.mp hr
        obtain ⟨hstep, hlater⟩ := h u hu
        rw [ih.mp hlater ms₁ v hshort hrest, hstep, count, hu, Option.elim_some, Nat.add_assoc]
    · intro h u hu
      have hone {ms₁ : List (Move ι ε)} {v : World σ κ}
          (hrest : S.run (fun _ _ => True) u ms₁ = some v) :
          S.run (fun _ _ => True) w (m :: ms₁) = some v :=
        run_cons_iff.mpr ⟨trivial, u, hu, hrest⟩
      have hstep : f u = f w + (P w m).toNat := by
        simpa [count, hu] using h [m] u (by simp) (hone rfl)
      refine ⟨hstep, ih.mpr fun ms₁ v hpre hr => ?_⟩
      have := h (m :: ms₁) v (List.cons_prefix_cons.mpr ⟨rfl, hpre⟩) (hone hr)
      rw [count, hu, Option.elim_some] at this
      omega

variable (S) in
/-- After a step that meets `P` none meets `Q`. -/
def NeverAfter (P Q : World σ κ → Move ι ε → Prop) : World σ κ → List (Move ι ε) → Prop
  | _, [] => True
  | w, m :: ms => ∀ w', S.fire w m = some w' →
      (P w m → ¬ S.Sometime Q w' ms) ∧ NeverAfter P Q w' ms

/-- If the steps with `P` are those that lead to `D`, and a step that leads out of it has `Q`,
then no step in `D` has `Q`. -/
theorem NeverAfter.iff_along {P Q : World σ κ → Move ι ε → Prop} {D : World σ κ → Prop}
    {ms : List (Move ι ε)} (hP : ∀ v m v', S.fire v m = some v' → P v m → D v')
    (hin : ∀ v m v', S.fire v m = some v' → D v' → D v ∨ P v m)
    (hout : ∀ v m v', S.fire v m = some v' → D v → ¬ Q v m → D v')
    (hQ : ∀ v m, Q v m → ∃ v', S.fire v m = some v') :
    S.NeverAfter P Q w ms ∧ (D w → ¬ S.Sometime Q w ms) ↔
      S.Along (fun v m _ => D v → ¬ Q v m) w ms := by
  induction ms generalizing w with
  | nil => exact iff_of_true ⟨trivial, fun _ h => h⟩ trivial
  | cons m ms ih =>
    constructor
    · rintro ⟨hnever, hD⟩ w' hf
      obtain ⟨hafter, hlater⟩ := hnever w' hf
      refine ⟨fun hDw hQm => hD hDw (.inl hQm), ih.mp ⟨hlater, fun hDw' => ?_⟩⟩
      rcases hin w m w' hf hDw' with hDw | hPm
      · exact fun hsome => hD hDw (.inr ⟨w', hf, hsome⟩)
      · exact hafter hPm
    · intro h
      refine ⟨fun w' hf => ?_, fun hDw hsome => ?_⟩
      · obtain ⟨hnever, hD⟩ := ih.mpr (h w' hf).2
        exact ⟨fun hPm => hD (hP w m w' hf hPm), hnever⟩
      · have hnot (w' : World σ κ) (hf : S.fire w m = some w') : ¬ Q w m := (h w' hf).1 hDw
        rcases hsome with hQm | ⟨w', hf, hsome⟩
        · obtain ⟨w', hf⟩ := hQ w m hQm
          exact hnot w' hf hQm
        · exact (ih.mpr (h w' hf).2).2 (hout w m w' hf hDw (hnot w' hf)) hsome

instance Sometime.decidable {P : World σ κ → Move ι ε → Prop} [DecidableRel P] :
    ∀ (w : World σ κ) (ms : List (Move ι ε)), Decidable (S.Sometime P w ms)
  | _, [] => isFalse id
  | w, m :: ms => match hf : S.fire w m with
    | none => decidable_of_iff (P w m) (by simp [Sometime, hf])
    | some w' =>
      have : Decidable (S.Sometime P w' ms) := Sometime.decidable w' ms
      decidable_of_iff (P w m ∨ S.Sometime P w' ms) (by simp [Sometime, hf])

instance NeverAfter.decidable {P Q : World σ κ → Move ι ε → Prop} [DecidableRel P]
    [DecidableRel Q] :
    ∀ (w : World σ κ) (ms : List (Move ι ε)), Decidable (S.NeverAfter P Q w ms)
  | _, [] => isTrue trivial
  | w, m :: ms => match hf : S.fire w m with
    | none => isTrue (by simp [NeverAfter, hf])
    | some w' =>
      have : Decidable (S.NeverAfter P Q w' ms) := NeverAfter.decidable w' ms
      decidable_of_iff ((P w m → ¬ S.Sometime Q w' ms) ∧ S.NeverAfter P Q w' ms)
        (by simp [NeverAfter, hf])

/-! ## The thread-modular rule -/

/-- `I` is kept by every step, `J` is each job's own assertion. `act` speaks of the job
that moves, `stable` of a job that stands by. -/
structure Modular (S : System σ κ ι ε) (ok : World σ κ → Move ι ε → Prop)
    (I : σ → Prop) (J : σ → κ → Prop) : Prop where
  act : ∀ {w i c k s ks}, I w.shared → (∀ j ∈ w.pool, J w.shared j) → ok w (.act i c) →
    w.pool[i]? = some k → S.step c w.shared k = some (s, ks) → I s ∧ ∀ j ∈ ks, J s j
  stable : ∀ {w i c k s ks j}, I w.shared → ok w (.act i c) → w.pool[i]? = some k →
    J w.shared k → S.step c w.shared k = some (s, ks) → j ∈ others w i →
    J w.shared j → J s j
  env : ∀ {w e s ks}, I w.shared → ok w (.env e) → S.env e w.shared = some (s, ks) →
    I s ∧ (∀ j ∈ ks, J s j) ∧ ∀ j, J w.shared j → J s j

theorem Modular.reach {I : σ → Prop} {J : σ → κ → Prop} (h : S.Modular ok I J)
    (hI : I w₀.shared) (hJ : ∀ j ∈ w₀.pool, J w₀.shared j) (hr : S.Reach ok w₀ w) :
    I w.shared ∧ ∀ j ∈ w.pool, J w.shared j := by
  induction hr with
  | refl => exact ⟨hI, hJ⟩
  | @step u v m _ hm hf ih =>
    obtain ⟨hIu, hJu⟩ := ih
    cases m with
    | act i c =>
      obtain ⟨k, ⟨s, ks⟩, hk, hs, rfl⟩ := fire_act_iff.mp hf
      obtain ⟨hIs, hks⟩ := h.act hIu hJu hm hk hs
      refine ⟨hIs, fun j hj => ?_⟩
      rcases List.mem_append.mp hj with hj | hj
      · have hjk := hJu k (List.mem_of_getElem? hk)
        exact h.stable hIu hm hk hjk hs hj (hJu j (mem_of_mem_others hj))
      · exact hks j hj
    | env e =>
      obtain ⟨⟨s, ks⟩, hs, rfl⟩ := fire_env_iff.mp hf
      obtain ⟨hIs, hks, hold⟩ := h.env hIu hm hs
      refine ⟨hIs, fun j hj => ?_⟩
      rcases List.mem_append.mp hj with hj | hj
      · exact hold j (hJu j hj)
      · exact hks j hj

/-! ## Serialised runs -/

/-- A job with `touch` does not move while another one is `busy`. -/
def Serial (busy touch : κ → Bool) (w : World σ κ) : Move ι ε → Prop
  | .act i _ => ∀ k ∈ w.pool[i]?, touch k = true → ∀ j ∈ others w i, busy j = false
  | .env _ => True

instance (busy touch : κ → Bool) : DecidableRel (Serial (ι := ι) (ε := ε) (σ := σ) busy touch)
  | w, .act i _ =>
    inferInstanceAs <| Decidable <|
      ∀ k ∈ w.pool[i]?, touch k = true → ∀ j ∈ others w i, busy j = false
  | _, .env _ => inferInstanceAs (Decidable True)

/-! ## Handing a baton on -/

/-- While `P` holds some job in the pool satisfies `C`: a step that leaves `P` true either
had it true and was not taken by such a job, or leaves such a job behind. -/
structure Baton (S : System σ κ ι ε) (ok : World σ κ → Move ι ε → Prop)
    (A : World σ κ → Prop) (P : σ → Prop) (C : κ → Prop) : Prop where
  act : ∀ {w i c k s ks}, A w → ok w (.act i c) → w.pool[i]? = some k →
    S.step c w.shared k = some (s, ks) → P s →
    (P w.shared ∧ ¬ C k) ∨ (∃ j ∈ ks, C j) ∨ ∃ j ∈ others w i, C j
  env : ∀ {w e s ks}, A w → ok w (.env e) → S.env e w.shared = some (s, ks) → P s →
    P w.shared ∨ ∃ j ∈ ks, C j

theorem Baton.fire {A : World σ κ → Prop} {P : σ → Prop} {C : κ → Prop} {m : Move ι ε}
    (h : S.Baton ok A P C) (hA : A w) (hm : ok w m)
    (hw : P w.shared → ∃ j ∈ w.pool, C j) (hf : S.fire w m = some w') :
    P w'.shared → ∃ j ∈ w'.pool, C j := by
  intro hP
  cases m with
  | act i c =>
    obtain ⟨k, ⟨s, ks⟩, hk, hs, rfl⟩ := fire_act_iff.mp hf
    rcases h.act hA hm hk hs hP with ⟨hPw, hCk⟩ | ⟨j, hj, hC⟩ | ⟨j, hj, hC⟩
    · obtain ⟨j, hj, hC⟩ := hw hPw
      rcases (mem_iff_others hk j).mp hj with rfl | hj
      · exact absurd hC hCk
      · exact ⟨j, List.mem_append_left _ hj, hC⟩
    · exact ⟨j, List.mem_append_right _ hj, hC⟩
    · exact ⟨j, List.mem_append_left _ hj, hC⟩
  | env e =>
    obtain ⟨⟨s, ks⟩, hs, rfl⟩ := fire_env_iff.mp hf
    rcases h.env hA hm hs hP with hPw | ⟨j, hj, hC⟩
    · obtain ⟨j, hj, hC⟩ := hw hPw
      exact ⟨j, List.mem_append_left _ hj, hC⟩
    · exact ⟨j, List.mem_append_right _ hj, hC⟩

theorem Baton.reach {A : World σ κ → Prop} {P : σ → Prop} {C : κ → Prop}
    (h : S.Baton ok A P C) (hA : ∀ w, S.Reach ok w₀ w → A w)
    (h₀ : P w₀.shared → ∃ j ∈ w₀.pool, C j) (hr : S.Reach ok w₀ w) :
    P w.shared → ∃ j ∈ w.pool, C j :=
  Reach.invariant (P := fun w => P w.shared → ∃ j ∈ w.pool, C j) hA h₀
    (fun _ _ _ hAw hw hm hf => h.fire hAw hm hw hf) hr

end System

end JobPool
