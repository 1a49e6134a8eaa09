import Mathlib.Data.List.Basic

/-!
# Cutting a list at a separator

`cut sep xs` is the list of the pieces of `xs` that a separator ends, and the rest after
the last one. Cutting a concatenation is cutting its front, then what the front left over
together with the back (`cut_append`), so a reader that carries the rest from one read to
the next finds the same pieces whatever the reads are. `unlines` ends every piece with a
separator and is undone by `cut`.
-/

namespace Lines

variable {α : Type*} (sep : α)

def unlines (ls : List (List α)) : List α := ls.flatMap (· ++ [sep])

@[simp] theorem unlines_nil : unlines sep ([] : List (List α)) = [] := rfl

@[simp] theorem unlines_cons (l : List α) (ls : List (List α)) :
    unlines sep (l :: ls) = l ++ sep :: unlines sep ls := by
  simp [unlines]

@[simp] theorem unlines_append (ls ms : List (List α)) :
    unlines sep (ls ++ ms) = unlines sep ls ++ unlines sep ms := by
  simp [unlines]

theorem unlines_flatten (lss : List (List (List α))) :
    unlines sep lss.flatten = (lss.map (unlines sep)).flatten := by
  induction lss with
  | nil => rfl
  | cons ls lss ih => simp [ih]

/-- A non-empty list of terminated lines ends with the separator. -/
theorem getLast?_unlines {ls : List (List α)} (h : ls ≠ []) :
    (unlines sep ls).getLast? = some sep := by
  rw [← List.dropLast_append_getLast h]
  simp

variable {sep} in
/-- The first separator splits a list in one way. -/
theorem append_separator_inj {xs xs' ys ys' : List α} (h : sep ∉ xs)
    (h' : sep ∉ xs') (heq : xs ++ sep :: ys = xs' ++ sep :: ys') : xs = xs' ∧ ys = ys' := by
  induction xs generalizing xs' with
  | nil =>
    cases xs' with
    | nil => exact ⟨rfl, (List.cons.inj heq).2⟩
    | cons x xs' =>
      rw [(List.cons.inj heq).1] at h'
      exact absurd List.mem_cons_self h'
  | cons x xs ih =>
    cases xs' with
    | nil =>
      rw [(List.cons.inj heq).1] at h
      exact absurd List.mem_cons_self h
    | cons x' xs' =>
      obtain ⟨rfl, hrest⟩ := List.cons.inj heq
      obtain ⟨rfl, rfl⟩ := ih (List.not_mem_of_not_mem_cons h)
        (List.not_mem_of_not_mem_cons h') hrest
      exact ⟨rfl, rfl⟩

variable [DecidableEq α]

def cut : List α → List (List α) × List α
  | [] => ([], [])
  | a :: as =>
    if a = sep then ([] :: (cut as).1, (cut as).2)
    else match (cut as).1 with
      | [] => ([], a :: (cut as).2)
      | l :: ls => ((a :: l) :: ls, (cut as).2)

/-- All pieces, the unterminated one last. -/
def pieces (xs : List α) : List (List α) := (cut sep xs).1 ++ [(cut sep xs).2]

@[simp] theorem cut_nil : cut sep ([] : List α) = ([], []) := rfl

@[simp] theorem cut_sep (as : List α) :
    cut sep (sep :: as) = ([] :: (cut sep as).1, (cut sep as).2) := by
  simp [cut]

theorem cut_cons_of_ne {a : α} (h : a ≠ sep) (as : List α) :
    cut sep (a :: as) = match (cut sep as).1 with
      | [] => ([], a :: (cut sep as).2)
      | l :: ls => ((a :: l) :: ls, (cut sep as).2) := by
  simp [cut, h]

theorem cut_append (xs ys : List α) :
    cut sep (xs ++ ys) =
      ((cut sep xs).1 ++ (cut sep ((cut sep xs).2 ++ ys)).1,
        (cut sep ((cut sep xs).2 ++ ys)).2) := by
  induction xs with
  | nil => simp
  | cons a as ih =>
    by_cases h : a = sep
    · subst h
      simp [ih]
    · rw [List.cons_append, cut_cons_of_ne sep h, cut_cons_of_ne sep h, ih]
      cases hc : (cut sep as).1 with
      | nil => simp [cut_cons_of_ne sep h]
      | cons l ls => simp

theorem pieces_eq_splitOn (xs : List α) : pieces sep xs = xs.splitOn sep := by
  induction xs with
  | nil => simp [pieces]
  | cons a as ih =>
    rw [List.splitOn_cons_eq_if_modifyHead, ← ih, pieces, pieces]
    by_cases h : a = sep
    · simp [h]
    · rw [cut_cons_of_ne sep h]
      cases hcut : (cut sep as).1 <;> simp [h]

theorem cut_of_notMem {xs : List α} (h : sep ∉ xs) : cut sep xs = ([], xs) := by
  induction xs with
  | nil => rfl
  | cons a as ih =>
    obtain ⟨hne, has⟩ : sep ≠ a ∧ sep ∉ as := by simpa using h
    rw [cut_cons_of_ne sep hne.symm, ih has]

theorem notMem_cut_snd (xs : List α) : sep ∉ (cut sep xs).2 := by
  induction xs with
  | nil => simp
  | cons a as ih =>
    by_cases h : a = sep
    · subst h
      simpa using ih
    · rw [cut_cons_of_ne sep h]
      split
      · simpa [Ne.symm h] using ih
      · exact ih

theorem pieces_append (xs ys : List α) :
    pieces sep (xs ++ ys) = (cut sep xs).1 ++ pieces sep ((cut sep xs).2 ++ ys) := by
  simp [pieces, cut_append sep xs ys]

theorem cut_terminated {l : List α} (h : sep ∉ l) (ys : List α) :
    cut sep (l ++ sep :: ys) = (l :: (cut sep ys).1, (cut sep ys).2) := by
  induction l with
  | nil => simp
  | cons a as ih =>
    obtain ⟨hne, has⟩ : sep ≠ a ∧ sep ∉ as := by simpa using h
    rw [List.cons_append, cut_cons_of_ne sep hne.symm, ih has]

theorem cut_unlines {ls : List (List α)} (h : ∀ l ∈ ls, sep ∉ l) :
    cut sep (unlines sep ls) = (ls, []) := by
  induction ls with
  | nil => rfl
  | cons l ls ih =>
    have hls : ∀ m ∈ ls, sep ∉ m := fun m hm => h m (List.mem_cons_of_mem _ hm)
    rw [unlines_cons, cut_terminated sep (h l List.mem_cons_self), ih hls]

end Lines
