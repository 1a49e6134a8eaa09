import Mathlib.Data.List.DropRight
import BatchInference.Core.Spaces

/-!
# Writing and counting prompts

The methods of `SpacesClient` that put a batch's prompts object or count its lines. Uploads
write one JSON object a line; `copy_key` takes an object as it is. Where the uploads cut
their input (`bytes.splitlines`), where the reader cuts the object (at LF), and what both
skip is not the same: `promptLines_unlines` is why the counts still agree.
-/

namespace BatchInference

/-- The exceptions that callers tell apart. All but `other` are `ValueError`s. -/
inductive PyError where
  | jsonDecodeError
  | unicodeDecodeError
  | unicodeEncodeError
  | valueError (message : String)
  | other (message : String)
  deriving DecidableEq, Repr

def PyError.isValueError : PyError → Bool
  | .other _ => false
  | _ => true

/-- The parts of the runtime that a line passes through: `json.loads`, and `str` of what it
returns. A string of Python may have lone surrogates, which `json.loads` makes of their escapes;
`Char` has none, so `surrogate` tells which characters stand for one. -/
structure Runtime where
  loads : String → Except PyError Json
  str : Json → String
  surrogate : Char → Bool
  ascii : ∀ c : Char, c.toNat < 128 → surrogate c = false

/-- `text.encode("utf-8")` -/
def Runtime.encode (rt : Runtime) (text : List Char) : Except PyError Bytes :=
  if text.any rt.surrogate then .error .unicodeEncodeError else .ok (encodeUtf8 text)

/-- The text of the value has a lone surrogate. -/
def Runtime.lone (rt : Runtime) (v : Json) : Bool := v.dumps.any rt.surrogate

/-! ## Dictionaries -/

abbrev Dict := List (String × Json)

namespace Dict

/-- `d[key] = value` -/
def set (d : Dict) (key : String) (value : Json) : Dict :=
  if (d.lookup key).isSome then d.map fun item => if item.1 = key then (key, value) else item
  else d ++ [(key, value)]

/-- `{**d, **other}` -/
def merge (d other : Dict) : Dict := other.foldl (fun d item => d.set item.1 item.2) d

/-- `d.setdefault(key, value)` -/
def setDefault (d : Dict) (key : String) (value : Json) : Dict :=
  if (d.lookup key).isSome then d else d ++ [(key, value)]

theorem lookup_set_of_ne {d : Dict} {key key' : String} {value : Json} (h : key' ≠ key) :
    (d.set key value).lookup key' = d.lookup key' := by
  have hbeq : (key' == key) = false := beq_false_of_ne h
  unfold set
  split
  · rename_i hhas
    clear hhas
    induction d with
    | nil => rfl
    | cons item d ih =>
      rw [List.map_cons, List.lookup_cons, List.lookup_cons, ih]
      split_ifs with hkey <;> simp [hbeq, hkey]
  · simp [List.lookup_append, List.lookup_cons, hbeq]

theorem lookup_merge {d other : Dict} {key : String} (h : other.lookup key = none) :
    (d.merge other).lookup key = d.lookup key := by
  unfold merge
  induction other generalizing d with
  | nil => rfl
  | cons item other ih =>
    rw [List.lookup_cons] at h
    split at h
    · cases h
    · rename_i hne
      rw [List.foldl_cons, ih h, lookup_set_of_ne (by simpa using hne)]

theorem lookup_setDefault {d : Dict} {key : String} {value : Json} (h : d.lookup key = none) :
    (d.setDefault key value).lookup key = some value := by
  simp [setDefault, h, List.lookup_append]

end Dict

/-- `json.dumps(d, ensure_ascii=False).encode("utf-8")`, where this does not raise. -/
def dumpsDict (d : Dict) : Bytes := encodeUtf8 (Json.obj d).dumps

def Runtime.dumpsLine (rt : Runtime) (d : Dict) : Except PyError Bytes :=
  rt.encode (Json.obj d).dumps

/-- `b"\n".join(lines) + (b"\n" if lines else b"")` -/
def joinLines (lines : List Bytes) : Bytes :=
  [lf].intercalate lines ++ if lines = [] then [] else [lf]

/-! ## upload_prompts_ndjson -/

inductive Prompt where
  | str (s : String)
  | dict (d : Dict)

def Prompt.object (i : Nat) : Prompt → Dict
  | .str s => [("index", .int i), ("prompt", .str s)]
  | .dict d => (Dict.merge [("index", .int i)] d).setDefault "index" (.int i)

/-- The body that it puts, and the count that it returns. -/
def uploadPromptsNdjson (rt : Runtime) (prompts : List Prompt) : Except PyError (Bytes × Nat) := do
  let lines ← (prompts.mapIdx Prompt.object).mapM rt.dumpsLine
  return (joinLines lines, prompts.length)

/-! ## upload_raw_ndjson -/

/-- `bytes.splitlines` -/
def splitLines : Bytes → List Bytes
  | [] => []
  | [b] => if b = 10 ∨ b = 13 then [[]] else [[b]]
  | b :: b' :: rest =>
    if b = 13 ∧ b' = 10 then [] :: splitLines rest
    else if b = 10 ∨ b = 13 then [] :: splitLines (b' :: rest)
    else match splitLines (b' :: rest) with
      | [] => [[b]]
      | line :: lines => (b :: line) :: lines

/-- `bytes.strip` -/
def strip (line : Bytes) : Bytes := (line.dropWhile isSpace).rdropWhile isSpace

def decodeLine (line : Bytes) : Except PyError String :=
  match decodeUtf8 line with
  | some text => .ok text
  | none => .error .unicodeDecodeError

/-- The object that is written for a line. -/
def normalizeLine (rt : Runtime) (idx : Nat) (text : String) : Except PyError Dict :=
  match rt.loads text with
  | .ok (.obj parsed) => .ok (Dict.setDefault parsed "index" (.int idx))
  | .ok parsed => .ok [("index", .int idx), ("prompt", .str (rt.str parsed))]
  | .error .jsonDecodeError => .ok [("index", .int idx), ("prompt", .str text)]
  | .error e => .error e

/-- The dict `d` is dumped for the line. -/
def Normalizes (rt : Runtime) (line : String × Nat) (d : Dict) : Prop :=
  normalizeLine rt line.2 line.1 = .ok d ∧ rt.lone (.obj d) = false

/-- The loop over `data.splitlines()`. -/
def rawLoop (rt : Runtime) : Nat → List Bytes → Except PyError (List Bytes)
  | _, [] => .ok []
  | idx, raw :: lines =>
    if strip raw = [] then rawLoop rt idx lines
    else do
      let text ← decodeLine (strip raw)
      let parsed ← normalizeLine rt idx text
      let line ← rt.dumpsLine parsed
      let out ← rawLoop rt (idx + 1) lines
      return line :: out

def uploadRawNdjson (rt : Runtime) (data : Bytes) : Except PyError (Bytes × Nat) := do
  let out ← rawLoop rt 0 (splitLines data)
  return (joinLines out, out.length)

/-! ## count_ndjson_lines -/

def countNdjsonLines (reads : List Bytes) : Except PyError Nat :=
  match streamTexts reads with
  | some lines => .ok lines.length
  | none => .error .unicodeDecodeError

/-! ## What the reader finds -/

theorem bind_ok {α β : Type} {x : Except PyError α} {f : α → Except PyError β} {b : β}
    (h : x >>= f = .ok b) : ∃ a, x = .ok a ∧ f a = .ok b := by
  cases x with
  | error => cases h
  | ok a => exact ⟨a, rfl, h⟩

theorem promptLines_joinLines {lines : List Bytes}
    (h : ∀ line ∈ lines, lf ∉ line ∧ isBlank line = false) :
    promptLines (joinLines lines) = lines := by
  rw [joinLines, intercalate_eq_unlines, promptLines, Lines.pieces,
    Lines.cut_unlines lf fun line hl => (h line hl).1]
  rw [List.filter_append, List.filter_eq_self.mpr fun line hl => by simp [(h line hl).2]]
  simp [isBlank]

theorem bytes_encodeUtf8 (cs : List Char) :
    (⟨(encodeUtf8 cs).toArray⟩ : ByteArray) = (String.ofList cs).toByteArray := by
  rw [String.toByteArray_ofList, List.utf8Encode, ← ByteArray.ext_iff.mpr List.data_toByteArray]
  rfl

theorem decodeUtf8_encodeUtf8 (cs : List Char) :
    decodeUtf8 (encodeUtf8 cs) = some (String.ofList cs) := by
  rw [decodeUtf8, bytes_encodeUtf8, String.fromUTF8?, dif_pos (String.ofList cs).isValidUTF8]
  rfl

theorem dumpsLine_eq (rt : Runtime) (d : Dict) : rt.dumpsLine d =
    if rt.lone (.obj d) then .error .unicodeEncodeError else .ok (dumpsDict d) := rfl

theorem dumpsLine_ok {rt : Runtime} {d : Dict} {line : Bytes} :
    rt.dumpsLine d = .ok line ↔ rt.lone (.obj d) = false ∧ line = dumpsDict d := by
  rw [dumpsLine_eq]
  cases rt.lone (.obj d) <;> simp [eq_comm]

/-- The lines are dumped if none of them has a lone surrogate. -/
theorem mapM_dumpsLine (rt : Runtime) (ds : List Dict) : ds.mapM rt.dumpsLine =
    if ds.any fun d => rt.lone (.obj d) then .error .unicodeEncodeError
    else .ok (ds.map dumpsDict) := by
  induction ds with
  | nil => rfl
  | cons d ds ih =>
    rw [List.mapM_cons, ih, dumpsLine_eq, List.any_cons]
    cases rt.lone (.obj d) with
    | true => rfl
    | false =>
      cases ds.any fun d => rt.lone (.obj d) <;> rfl

theorem uploadPromptsNdjson_eq (rt : Runtime) (prompts : List Prompt) :
    uploadPromptsNdjson rt prompts =
      if (prompts.mapIdx Prompt.object).any fun d => rt.lone (.obj d) then
        .error .unicodeEncodeError
      else .ok (joinLines ((prompts.mapIdx Prompt.object).map dumpsDict), prompts.length) := by
  rw [uploadPromptsNdjson, mapM_dumpsLine]
  split <;> rfl

theorem uploadPromptsNdjson_ok {rt : Runtime} {prompts : List Prompt} {r : Bytes × Nat}
    (h : uploadPromptsNdjson rt prompts = .ok r) :
    r = (joinLines ((prompts.mapIdx Prompt.object).map dumpsDict), prompts.length) := by
  rw [uploadPromptsNdjson_eq] at h
  split at h
  · cases h
  · exact (Except.ok.inj h).symm

/-- The object's text opens with a brace. -/
theorem dumpsDict_line (d : Dict) : lf ∉ dumpsDict d ∧ isBlank (dumpsDict d) = false := by
  refine ⟨lf_notMem_encode (Json.newline_notMem_dumps _), ?_⟩
  have hopen : ∃ rest, dumpsDict d = 123 :: rest := by
    simp only [dumpsDict, Json.dumps, encodeUtf8, List.cons_append, List.flatMap_cons]
    exact ⟨_, rfl⟩
  obtain ⟨rest, hrest⟩ := hopen
  simp [hrest, isBlank, isSpace]

theorem ok_of_toOption {ε α β : Type} {x : Except ε α} {f : α → β} {b : β}
    (h : x.toOption.map f = some b) : ∃ a, x = .ok a ∧ f a = b := by
  cases x with
  | error => cases h
  | ok a => exact ⟨a, rfl, Option.some.inj h⟩

theorem forall₂_of_mapM {α β : Type} {f : α → Option β} {xs : List α} {ys : List β}
    (h : xs.mapM f = some ys) : List.Forall₂ (fun x y => f x = some y) xs ys := by
  induction xs generalizing ys with
  | nil => cases h; exact .nil
  | cons x xs ih =>
    obtain ⟨y, rest, hy, hrest, rfl⟩ := mapM_cons_eq_some h
    exact .cons hy (ih hrest)

def dictText (d : Dict) : String := String.ofList (Json.obj d).dumps

/-- A body of dumped objects is read back line by line. -/
theorem texts_joinLines (ds : List Dict) :
    (promptLines (joinLines (ds.map dumpsDict))).mapM decodeUtf8 = some (ds.map dictText) := by
  rw [promptLines_joinLines (List.forall_mem_map.mpr fun d _ => dumpsDict_line d)]
  induction ds with
  | nil => rfl
  | cons d ds ih => simp [dumpsDict, decodeUtf8_encodeUtf8, dictText, ih]

/-- What `upload_raw_ndjson` does to the lines that it does not skip. -/
theorem rawLoop_ok {rt : Runtime} {idx : Nat} {lines out : List Bytes}
    (h : rawLoop rt idx lines = .ok out) :
    ∃ texts ds, ((lines.map strip).filter (· ≠ [])).mapM decodeUtf8 = some texts ∧
      List.Forall₂ (Normalizes rt) (texts.zipIdx idx) ds ∧ out = ds.map dumpsDict := by
  induction lines generalizing idx out with
  | nil => cases h; exact ⟨[], [], rfl, .nil, rfl⟩
  | cons raw lines ih =>
    rw [rawLoop] at h
    split at h
    · rename_i hblank
      obtain ⟨texts, ds, htexts, hds, rfl⟩ := ih h
      exact ⟨texts, ds, by simpa [hblank] using htexts, hds, rfl⟩
    · rename_i hblank
      obtain ⟨text, htext, h⟩ := bind_ok h
      obtain ⟨parsed, hparsed, h⟩ := bind_ok h
      obtain ⟨line, hline, h⟩ := bind_ok h
      obtain ⟨rest, hrest, h⟩ := bind_ok h
      cases h
      obtain ⟨hlone, rfl⟩ := dumpsLine_ok.mp hline
      obtain ⟨texts, ds, htexts, hds, rfl⟩ := ih hrest
      have hdecode : decodeUtf8 (strip raw) = some text := by
        unfold decodeLine at htext
        split at htext <;> cases htext
        assumption
      refine ⟨text :: texts, parsed :: ds, ?_, .cons ⟨hparsed, hlone⟩ hds, rfl⟩
      rw [List.map_cons, List.filter_cons_of_pos (by simpa using hblank), List.mapM_cons, hdecode,
        htexts]
      rfl

end BatchInference
