import Mathlib.Data.List.Basic
import Mathlib.Tactic.Common

/-!
# JSON values and their text

The values that `json.loads` returns and `json.dumps(..., ensure_ascii=False)` prints, with
its default separators. A row of an NDJSON object is one such text, so what the readers of
these objects rely on is that the text has no raw newline (`newline_notMem_dumps`), also
after UTF-8 encoding (`newline_notMem_encode`).
-/

namespace BatchInference

abbrev Bytes := List UInt8

/-- A float: what `repr` prints, and what `int` makes of it (`none` for inf and nan). -/
structure PyFloat where
  repr : List Char
  trunc : Option Int
  one_line : '\n' ∉ repr

inductive Json where
  | null
  | bool (b : Bool)
  | int (n : Int)
  | float (x : PyFloat)
  | str (s : String)
  | arr (xs : List Json)
  | obj (fields : List (String × Json))

namespace Json

/-- `dict.get`, absent for a value that has no such method. -/
def get? (key : String) : Json → Option Json
  | .obj fields => fields.lookup key
  | _ => none

def hexDigits (n : Nat) : List Char :=
  [Nat.digitChar (n / 4096 % 16), Nat.digitChar (n / 256 % 16), Nat.digitChar (n / 16 % 16),
    Nat.digitChar (n % 16)]

/-- Only the quote, the backslash and the characters below U+0020 are escaped. -/
def escape (c : Char) : List Char :=
  if c = '"' then ['\\', '"']
  else if c = '\\' then ['\\', '\\']
  else if c = '\n' then ['\\', 'n']
  else if c = '\r' then ['\\', 'r']
  else if c = '\t' then ['\\', 't']
  else if c.toNat = 8 then ['\\', 'b']
  else if c.toNat = 12 then ['\\', 'f']
  else if c.toNat < 32 then '\\' :: 'u' :: hexDigits c.toNat
  else [c]

def dumpsStr (s : String) : List Char := '"' :: s.toList.flatMap escape ++ ['"']

mutual

def dumps : Json → List Char
  | .null => "null".toList
  | .bool b => (if b then "true" else "false").toList
  | .int n => n.repr.toList
  | .float x => x.repr
  | .str s => dumpsStr s
  | .arr xs => '[' :: ", ".toList.intercalate (dumpsItems xs) ++ [']']
  | .obj fields => '\x7b' :: ", ".toList.intercalate (dumpsFields fields) ++ ['\x7d']

def dumpsItems : List Json → List (List Char)
  | [] => []
  | x :: xs => x.dumps :: dumpsItems xs

def dumpsFields : List (String × Json) → List (List Char)
  | [] => []
  | (key, v) :: fields => (dumpsStr key ++ ": ".toList ++ v.dumps) :: dumpsFields fields

end

/-- The text of a number, a minus sign and digits, is printable ASCII. -/
theorem printable_repr {n : Int} {c : Char} (h : c ∈ n.repr.toList) :
    32 ≤ c.toNat ∧ c.toNat < 128 := by
  have digits {m : Nat} (hm : c ∈ m.repr.toList) : 32 ≤ c.toNat ∧ c.toNat < 128 := by
    rw [Nat.repr, String.toList_ofList] at hm
    have hdigit := Nat.isDigit_of_mem_toDigits (by decide) (by decide) hm
    simp only [Char.isDigit, Bool.and_eq_true, decide_eq_true_eq] at hdigit
    exact ⟨Nat.le_trans (by decide) (UInt32.le_iff_toNat_le.mp hdigit.1),
      Nat.lt_of_le_of_lt (UInt32.le_iff_toNat_le.mp hdigit.2) (by decide)⟩
  cases n with
  | ofNat m => exact digits h
  | negSucc m =>
    rcases (by simpa [Int.repr] using h : c = '-' ∨ c ∈ (m + 1).repr.toList) with rfl | h
    · decide
    · exact digits h

/-- An escape is printable, and what it adds to the character is ASCII. -/
theorem printable_escape (c : Char) :
    ∀ x ∈ escape c, 32 ≤ x.toNat ∧ (x = c ∨ x.toNat < 128) := by
  have digits : ∀ d < 16, 32 ≤ (Nat.digitChar d).toNat ∧ (Nat.digitChar d).toNat < 128 := by
    decide
  have hex (d : Nat) := digits (d % 16) (Nat.mod_lt _ (by decide))
  unfold escape
  split_ifs
  case neg hlow => simpa using Nat.le_of_not_lt hlow
  all_goals simp [hexDigits, hex]

theorem any_intercalate {p : Char → Bool} {sep : List Char} (hsep : sep.any p = false)
    (ls : List (List Char)) : (sep.intercalate ls).any p = ls.any (·.any p) := by
  induction ls with
  | nil => simp [List.intercalate]
  | cons l ls ih =>
    cases ls with
    | nil => simp [List.intercalate]
    | cons m ls =>
      rw [List.intercalate_cons_cons, List.any_append, List.any_append, ih, hsep, Bool.or_false,
        List.any_cons (l := m :: ls)]

theorem newline_notMem_repr (n : Int) : '\n' ∉ n.repr.toList :=
  fun h => absurd (printable_repr h).1 (by decide)

theorem newline_notMem_dumpsStr (s : String) : '\n' ∉ dumpsStr s := by
  have hescape (c : Char) : '\n' ∉ escape c := fun h =>
    absurd (printable_escape c _ h).1 (by decide)
  simp [dumpsStr, hescape]

theorem newline_notMem_intercalate {sep : List Char} {ls : List (List Char)}
    (hs : '\n' ∉ sep) (h : ∀ l ∈ ls, '\n' ∉ l) : '\n' ∉ sep.intercalate ls := by
  have notMem (l : List Char) : '\n' ∉ l ↔ l.any (· == '\n') = false := by
    simp [List.forall_mem_ne']
  rw [notMem] at hs ⊢
  rw [any_intercalate hs, List.any_eq_false]
  exact fun l hl => by simpa using h l hl

mutual

theorem newline_notMem_dumps : ∀ v : Json, '\n' ∉ v.dumps
  | .null => by decide
  | .bool b => by cases b <;> decide
  | .int n => by simpa [dumps] using newline_notMem_repr n
  | .float x => by simpa [dumps] using x.one_line
  | .str s => by simpa [dumps] using newline_notMem_dumpsStr s
  | .arr xs => by
    have := newline_notMem_intercalate (by decide : '\n' ∉ ", ".toList)
      (newline_notMem_dumpsItems xs)
    simpa [dumps] using this
  | .obj fields => by
    have := newline_notMem_intercalate (by decide : '\n' ∉ ", ".toList)
      (newline_notMem_dumpsFields fields)
    simpa [dumps] using this

theorem newline_notMem_dumpsItems : ∀ xs : List Json, ∀ l ∈ dumpsItems xs, '\n' ∉ l
  | [], _, h => by simp [dumpsItems] at h
  | x :: xs, l, h => by
    rcases List.mem_cons.mp (by simpa only [dumpsItems] using h) with rfl | h
    · exact newline_notMem_dumps x
    · exact newline_notMem_dumpsItems xs l h

theorem newline_notMem_dumpsFields :
    ∀ fields : List (String × Json), ∀ l ∈ dumpsFields fields, '\n' ∉ l
  | [], _, h => by simp [dumpsFields] at h
  | (key, v) :: fields, l, h => by
    rcases List.mem_cons.mp (by simpa only [dumpsFields] using h) with rfl | h
    · simp [newline_notMem_dumpsStr, newline_notMem_dumps v]
    · exact newline_notMem_dumpsFields fields l h

end

/-! ### Characters outside ASCII

All that `dumps` adds to the strings of a value is ASCII. -/

theorem escape_of_le {c : Char} (h : 128 ≤ c.toNat) : escape c = [c] := by
  have hne (d : Char) (hd : d.toNat < 128) : c ≠ d := by
    rintro rfl
    omega
  rw [escape, if_neg (hne _ (by decide)), if_neg (hne _ (by decide)), if_neg (hne _ (by decide)),
    if_neg (hne _ (by decide)), if_neg (hne _ (by decide)), if_neg (by omega), if_neg (by omega),
    if_neg (by omega)]

theorem ascii_escape {c x : Char} (h : c.toNat < 128) (hx : x ∈ escape c) : x.toNat < 128 := by
  rcases (printable_escape c x hx).2 with rfl | hascii
  · exact h
  · exact hascii

section Any

variable {p : Char → Bool} (hp : ∀ c : Char, c.toNat < 128 → p c = false)
include hp

theorem any_of_ascii {cs : List Char} (h : ∀ c ∈ cs, c.toNat < 128) : cs.any p = false := by
  simpa using fun c hc => hp c (h c hc)

theorem any_escape (c : Char) : (escape c).any p = p c := by
  rcases Nat.lt_or_ge c.toNat 128 with h | h
  · rw [any_of_ascii hp fun _ hx => ascii_escape h hx, hp c h]
  · simp [escape_of_le h]

theorem any_dumpsStr (s : String) : (dumpsStr s).any p = s.toList.any p := by
  have hquote : p '"' = false := hp _ (by decide)
  simp [dumpsStr, hquote, List.any_flatMap, any_escape hp]

theorem any_dumps_int (n : Int) : (dumps (.int n)).any p = false :=
  any_of_ascii hp fun _ h => (printable_repr h).2

theorem any_dumps_obj (fields : List (String × Json)) : (dumps (.obj fields)).any p =
    fields.any fun field => field.1.toList.any p || field.2.dumps.any p := by
  have hsep : (", ".toList).any p = false := by simp [hp]
  have hcolon : (": ".toList).any p = false := by simp [hp]
  have hfields : (dumpsFields fields).any (·.any p) =
      fields.any fun field => field.1.toList.any p || field.2.dumps.any p := by
    induction fields with
    | nil => rfl
    | cons field fields ih =>
      obtain ⟨key, v⟩ := field
      rw [dumpsFields, List.any_cons, ih, List.any_cons, List.any_append, List.any_append,
        any_dumpsStr hp, hcolon, Bool.or_false]
  rw [dumps, List.cons_append, List.any_cons, List.any_append, any_intercalate hsep, hfields]
  simp [hp]

end Any

end Json

/-! ## UTF-8 -/

def encodeUtf8 (cs : List Char) : Bytes := cs.flatMap String.utf8EncodeChar

/-- The byte that ends a line. -/
def lf : UInt8 := 10

/-- An ASCII byte comes from no other character. -/
theorem toNat_of_mem_encode {b : UInt8} {c : Char} (hb : b.toNat < 128)
    (h : b ∈ String.utf8EncodeChar c) : c.toNat = b.toNat := by
  -- every byte of a longer sequence is at least 0x80
  rw [String.utf8EncodeChar] at h
  split_ifs at h
  all_goals simp only [List.mem_cons, List.not_mem_nil, or_false, ← UInt8.toNat_inj,
    UInt8.toNat_ofNat'] at h
  · simp only [Char.toNat] at *
    omega
  all_goals omega

theorem notMem_encode {b : UInt8} {c : Char} {cs : List Char} (hb : b.toNat < 128)
    (hc : c.toNat = b.toNat) (h : c ∉ cs) : b ∉ encodeUtf8 cs := by
  intro hm
  obtain ⟨c', hc', hb'⟩ := List.mem_flatMap.mp hm
  obtain rfl : c' = c := Char.toNat_inj.mp ((toNat_of_mem_encode hb hb').trans hc.symm)
  exact h hc'

theorem lf_notMem_encode {cs : List Char} (h : '\n' ∉ cs) : lf ∉ encodeUtf8 cs :=
  notMem_encode (by decide) rfl h

end BatchInference
