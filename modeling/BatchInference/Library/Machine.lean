import Mathlib.Algebra.Order.Ring.Defs
import Mathlib.Tactic.Linarith
import Mathlib.Tactic.Ring

/-!
# Machines that answer their inputs

A machine takes its inputs one after the other and answers each of them; `trace` lists the
inputs with their answers. Where every input has its time, `Clocked` is the invariant rule
for a state that may depend on the time of the last input, and `Credit` is the potential
method: what a machine gives away in a stretch of time is paid from what it is worth at
the start and from what it gains in that time.
-/

namespace Machine

variable {σ α β : Type*} {step : σ → α → σ × β} {s : σ} {as : List α}

def after (step : σ → α → σ × β) (s : σ) (as : List α) : σ :=
  as.foldl (fun s a => (step s a).1) s

/-- The inputs and their answers. -/
def trace (step : σ → α → σ × β) : σ → List α → List (α × β)
  | _, [] => []
  | s, a :: as => (a, (step s a).2) :: trace step (step s a).1 as

@[simp] theorem after_nil : after step s [] = s := rfl

@[simp] theorem after_cons {a : α} : after step s (a :: as) = after step (step s a).1 as := rfl

@[simp] theorem after_append {bs : List α} :
    after step s (as ++ bs) = after step (after step s as) bs := List.foldl_append ..

@[simp] theorem trace_nil : trace step s [] = [] := rfl

@[simp] theorem trace_cons {a : α} :
    trace step s (a :: as) = (a, (step s a).2) :: trace step (step s a).1 as := rfl

@[simp] theorem trace_append {bs : List α} :
    trace step s (as ++ bs) = trace step s as ++ trace step (after step s as) bs := by
  induction as generalizing s with
  | nil => rfl
  | cons a as ih => simp [ih]

@[simp] theorem length_trace : (trace step s as).length = as.length := by
  induction as generalizing s with
  | nil => rfl
  | cons a as ih => simp [ih]

theorem take_trace (n : ℕ) : (trace step s as).take n = trace step s (as.take n) := by
  induction as generalizing s n with
  | nil => simp
  | cons a as ih => cases n <;> simp [ih]

theorem drop_trace (n : ℕ) :
    (trace step s as).drop n = trace step (after step s (as.take n)) (as.drop n) := by
  induction as generalizing s n with
  | nil => simp
  | cons a as ih => cases n <;> simp [ih]

theorem trace_map {γ : Type*} (f : γ → α) {cs : List γ} :
    trace step s (cs.map f) =
      (trace (fun s c => step s (f c)) s cs).map fun p => (f p.1, p.2) := by
  induction cs generalizing s with
  | nil => rfl
  | cons c cs ih => simp [ih]

/-- The elements from position `i` on and before position `j`. -/
def window (i j : ℕ) (as : List α) : List α := (as.take j).drop i

theorem window_trace {i j : ℕ} (h : i ≤ j) :
    window i j (trace step s as) = trace step (after step s (as.take i)) (window i j as) := by
  rw [window, take_trace, drop_trace, List.take_take, min_eq_left h]
  rfl

theorem window_map {γ : Type*} (f : α → γ) (i j : ℕ) (as : List α) :
    window i j (as.map f) = (window i j as).map f := by
  rw [window, ← List.map_take, ← List.map_drop]
  rfl

theorem mem_window {i j : ℕ} {a : α} (h : a ∈ window i j as) :
    ∃ k, ∃ hk : k < as.length, i ≤ k ∧ k < j ∧ as[k] = a := by
  obtain ⟨n, hn, rfl⟩ := List.getElem_of_mem h
  simp only [window, List.length_drop, List.length_take] at hn
  exact ⟨i + n, by omega, by omega, by omega, by simp [window]⟩

/-! ## A machine for each key -/

section Keyed

variable {κ : Type*} [DecidableEq κ]

/-- Each input goes to the machine with its key. -/
def keyed (step : σ → α → σ × β) (store : κ → σ) (input : κ × α) : (κ → σ) × β :=
  let (s, b) := step (store input.1) input.2
  (Function.update store input.1 s, b)

/-- The inputs with key `k`. -/
def inputsOf (k : κ) (inputs : List (κ × α)) : List α :=
  (inputs.filter fun input => input.1 = k).map Prod.snd

variable {store : κ → σ} {inputs inputs' : List (κ × α)} {k : κ}

@[simp] theorem inputsOf_nil : inputsOf k ([] : List (κ × α)) = [] := rfl

theorem inputsOf_cons (input : κ × α) (inputs : List (κ × α)) : inputsOf k (input :: inputs) =
    if input.1 = k then input.2 :: inputsOf k inputs else inputsOf k inputs := by
  by_cases h : input.1 = k <;> simp [inputsOf, h]

/-- The others' inputs change neither the machine of a key nor its answers: these are what it
gives to its own inputs alone. -/
theorem after_keyed :
    after (keyed step) store inputs k = after step (store k) (inputsOf k inputs) := by
  induction inputs generalizing store with
  | nil => rfl
  | cons input inputs ih =>
    rw [after_cons, ih, inputsOf_cons]
    by_cases h : input.1 = k
    · subst h
      simp [keyed]
    · simp [keyed, h, Function.update_of_ne (Ne.symm h)]

theorem trace_keyed : ((trace (keyed step) store inputs).filter fun p => p.1.1 = k).map
    (fun p => (p.1.2, p.2)) = trace step (store k) (inputsOf k inputs) := by
  induction inputs generalizing store with
  | nil => rfl
  | cons input inputs ih =>
    rw [trace_cons, inputsOf_cons]
    by_cases h : input.1 = k
    · subst h
      simp [keyed, ih]
    · simp [keyed, h, ih, Function.update_of_ne (Ne.symm h)]

end Keyed

/-! ## Inputs with times -/

section Clocked

variable {K : Type*} [LinearOrder K] {now : α → K} {ok : α → Prop} {I : K → σ → Prop}
  {t u : K}

/-- The inputs meet `ok`, and their times lie between `t` and `u` and do not decrease. -/
structure Between (now : α → K) (ok : α → Prop) (t u : K) (as : List α) : Prop where
  sorted : as.Pairwise fun a b => now a ≤ now b
  first : ∀ a ∈ as, t ≤ now a
  last : ∀ a ∈ as, now a ≤ u
  le : t ≤ u
  ok : ∀ a ∈ as, ok a

theorem Between.head {a : α} (h : Between now ok t u (a :: as)) :
    t ≤ now a ∧ ok a ∧ Between now ok (now a) u as := by
  obtain ⟨hsorted, hfirst, hlast, -, hok⟩ := h
  rw [List.pairwise_cons] at hsorted
  rw [List.forall_mem_cons] at hfirst hlast hok
  exact ⟨hfirst.1, hok.1, hsorted.2, hsorted.1, hlast.2, hlast.1, hok.2⟩

/-- The window before position `k` of inputs in the order of their times, on the times of
the inputs at `i` and `j`. -/
theorem Between.window {i j k : ℕ} (hsorted : as.Pairwise fun a b => now a ≤ now b)
    (hij : i ≤ j) (hj : j < as.length) (hk : k ≤ j + 1)
    (hok : ∀ a ∈ window i k as, ok a) :
    Between now ok (now as[i]) (now as[j]) (window i k as) := by
  have hle {m n : ℕ} (hmn : m ≤ n) (hn : n < as.length) : now as[m] ≤ now as[n] := by
    obtain rfl | hmn := hmn.eq_or_lt
    · exact le_rfl
    · exact List.pairwise_iff_getElem.mp hsorted m n _ hn hmn
  refine ⟨?_, fun a ha => ?_, fun a ha => ?_, hle hij hj, hok⟩
  · exact (hsorted.sublist (List.take_sublist ..)).sublist (List.drop_sublist ..)
  · obtain ⟨n, hn, hin, -, rfl⟩ := mem_window ha
    exact hle hin hn
  · obtain ⟨n, hn, -, hnk, rfl⟩ := mem_window ha
    exact hle (by omega) hj

/-- Some of the inputs, in another form. -/
theorem Between.map_filter {γ : Type*} {cs : List γ} {ok' : γ → Prop} {p : γ → Bool} {f : γ → α}
    (h : Between (fun c => now (f c)) ok' t u cs) (hok : ∀ c, ok' c → p c = true → ok (f c)) :
    Between now ok t u ((cs.filter p).map f) where
  sorted := List.pairwise_map.mpr (h.sorted.filter _)
  first := List.forall_mem_map.mpr fun c hc => h.first c (List.mem_filter.mp hc).1
  last := List.forall_mem_map.mpr fun c hc => h.last c (List.mem_filter.mp hc).1
  le := h.le
  ok := List.forall_mem_map.mpr fun c hc =>
    hok c (h.ok c (List.mem_filter.mp hc).1) (List.mem_filter.mp hc).2

/-- `I t` is kept while time goes by, and by each input. -/
structure Clocked (step : σ → α → σ × β) (now : α → K) (ok : α → Prop) (I : K → σ → Prop) :
    Prop where
  pass : ∀ {t u s}, I t s → t ≤ u → I u s
  step : ∀ {s a}, I (now a) s → ok a → I (now a) (step s a).1

theorem Clocked.after (h : Clocked step now ok I) (hI : I t s) (has : Between now ok t u as) :
    I u (after step s as) := by
  induction as generalizing t s with
  | nil => exact h.pass hI has.le
  | cons a as ih =>
    obtain ⟨hle, hok, hrest⟩ := has.head
    exact ih (h.step (h.pass hI hle) hok) hrest

/-- The run of a state in which `I` holds at any time, such as a fresh one. -/
theorem Clocked.run (h : Clocked step now ok I) (hI : ∀ t, I t s)
    (hsorted : as.Pairwise fun a b => now a ≤ now b) (hok : ∀ a ∈ as, ok a)
    (hlast : ∀ a ∈ as, now a ≤ u) : I u (Machine.after step s as) := by
  cases as with
  | nil => exact hI u
  | cons a as =>
    have hfirst : ∀ b ∈ a :: as, now a ≤ now b :=
      List.forall_mem_cons.mpr ⟨le_rfl, (List.pairwise_cons.mp hsorted).1⟩
    exact h.after (hI (now a))
      ⟨hsorted, hfirst, hlast, hlast a List.mem_cons_self, hok⟩

end Clocked

/-! ## The potential method -/

section Credit

variable {K : Type*} [CommRing K] [LinearOrder K] [IsStrictOrderedRing K] {now : α → K}
  {ok : α → Prop} {I : K → σ → Prop} {given : α × β → Bool} {rate : K} {worth : K → σ → K}
  {t u : K}

/-- The answers that are `given` are paid from the worth of the state, which gains at most
`rate` in each unit of time. -/
structure Credit (step : σ → α → σ × β) (now : α → K) (ok : α → Prop) (I : K → σ → Prop)
    (given : α × β → Bool) (rate : K) (worth : K → σ → K) : Prop where
  pass : ∀ {t u s}, I t s → t ≤ u → worth u s ≤ worth t s + rate * (u - t)
  step : ∀ {s a}, I (now a) s → ok a →
    worth (now a) (step s a).1 + (if given (a, (step s a).2) then 1 else 0) ≤ worth (now a) s

theorem Credit.countP_le (h : Credit step now ok I given rate worth)
    (hc : Clocked step now ok I) (hI : I t s) (has : Between now ok t u as) :
    worth u (Machine.after step s as) + ((trace step s as).countP given : K) ≤
      worth t s + rate * (u - t) := by
  induction as generalizing t s with
  | nil => simpa using h.pass hI has.le
  | cons a as ih =>
    obtain ⟨hle, hok, hrest⟩ := has.head
    have hnow := hc.pass hI hle
    have hpass := h.pass hI hle
    have hstep := h.step hnow hok
    have hlater := ih (hc.step hnow hok) hrest
    have hsplit : rate * (u - t) = rate * (u - now a) + rate * (now a - t) := by ring
    rw [after_cons, trace_cons, List.countP_cons, hsplit]
    push_cast
    linarith

end Credit

end Machine
