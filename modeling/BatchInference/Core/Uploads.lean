import BatchInference.Core.Reading
import Mathlib.Data.List.Forall2

/-!
# Uploaded lines

What `upload_raw_ndjson` makes of a file that holds prompts, one JSON text a line: the objects
are those of `upload_prompts_ndjson` on the list of the prompts.
-/

namespace BatchInference

/-! ## Cutting the file -/

@[simp] theorem splitLines_nil : splitLines [] = [] := rfl

theorem splitLines_lf (rest : Bytes) : splitLines (lf :: rest) = [] :: splitLines rest := by
  cases rest <;> rfl

theorem splitLines_crlf (rest : Bytes) :
    splitLines (13 :: lf :: rest) = [] :: splitLines rest := rfl

theorem splitLines_cr {b : UInt8} (h : b ≠ lf) (rest : Bytes) :
    splitLines (13 :: b :: rest) = [] :: splitLines (b :: rest) :=
  (if_neg fun hcrlf => h hcrlf.2).trans (if_pos (.inr rfl))

theorem splitLines_cons {b : UInt8} (hlf : b ≠ lf) (hcr : b ≠ 13) (rest : Bytes) :
    splitLines (b :: rest) = match splitLines rest with
      | [] => [[b]]
      | line :: lines => (b :: line) :: lines := by
  have hb : ¬(b = 10 ∨ b = 13) := not_or.mpr ⟨hlf, hcr⟩
  cases rest with
  | nil => exact if_neg hb
  | cons b' rest => exact (if_neg fun hcrlf => hcr hcrlf.1).trans (if_neg hb)

/-- What a byte does to the lines of the bytes after it: nothing where it is the CR of a CRLF,
else it ends a line or goes before the first one. -/
theorem splitLines_cases (b : UInt8) (rest : Bytes) :
    (rest ≠ [] ∧ splitLines (b :: rest) = splitLines rest) ∨
    splitLines (b :: rest) = [] :: splitLines rest ∨
    (splitLines rest = [] ∧ splitLines (b :: rest) = [[b]]) ∨
    ∃ line lines, splitLines rest = line :: lines ∧
      splitLines (b :: rest) = (b :: line) :: lines := by
  by_cases hlf : b = lf
  · exact .inr (.inl (hlf ▸ splitLines_lf rest))
  by_cases hcr : b = 13
  · subst hcr
    cases rest with
    | nil => exact .inr (.inl rfl)
    | cons b rest =>
      by_cases hnext : b = lf
      · subst hnext
        exact .inl ⟨List.cons_ne_nil _ _, (splitLines_crlf rest).trans (splitLines_lf rest).symm⟩
      · exact .inr (.inl (splitLines_cr hnext rest))
  · rw [splitLines_cons hlf hcr]
    cases splitLines rest with
    | nil => exact .inr (.inr (.inl ⟨rfl, rfl⟩))
    | cons line lines => exact .inr (.inr (.inr ⟨line, lines, rfl, rfl⟩))

theorem splitLines_ne_nil {xs : Bytes} (h : xs ≠ []) : splitLines xs ≠ [] := by
  induction xs with
  | nil => exact absurd rfl h
  | cons b rest ih =>
    obtain ⟨hrest, heq⟩ | heq | ⟨-, heq⟩ | ⟨line, lines, -, heq⟩ := splitLines_cases b rest
    · exact heq ▸ ih hrest
    all_goals rw [heq]; exact List.cons_ne_nil _ _

/-- What follows a LF is cut on its own. -/
theorem splitLines_append (xs rest : Bytes) :
    splitLines (xs ++ lf :: rest) = splitLines (xs ++ [lf]) ++ splitLines rest := by
  induction xs with
  | nil => simp [splitLines_lf]
  | cons b xs ih =>
    by_cases hlf : b = lf
    · simp [hlf, splitLines_lf, ih]
    by_cases hcr : b = 13
    · subst hcr
      cases xs with
      | nil => simp [splitLines_crlf]
      | cons b xs =>
        simp only [List.cons_append] at ih ⊢
        by_cases hnext : b = lf
        · subst hnext
          simp only [splitLines_lf, List.cons_append, List.cons.injEq, true_and] at ih
          simp only [splitLines_crlf, ih, List.cons_append]
        · simp only [splitLines_cr hnext, ih, List.cons_append]
    · rw [List.cons_append, List.cons_append, splitLines_cons hlf hcr, splitLines_cons hlf hcr, ih]
      obtain ⟨line, lines, hlines⟩ :=
        List.exists_cons_of_ne_nil (splitLines_ne_nil (List.append_ne_nil_of_right_ne_nil xs
          (List.cons_ne_nil lf [])))
      simp [hlines]

/-- A line has its bytes from the file. -/
theorem subset_of_mem_splitLines {xs line : Bytes} (h : line ∈ splitLines xs) : line ⊆ xs := by
  induction xs generalizing line with
  | nil => simp at h
  | cons b rest ih =>
    obtain ⟨-, heq⟩ | heq | ⟨-, heq⟩ | ⟨first, lines, hrest, heq⟩ := splitLines_cases b rest
    · exact List.subset_cons_of_subset b (ih (heq ▸ h))
    · rcases List.mem_cons.mp (heq ▸ h) with rfl | h
      · exact List.nil_subset _
      · exact List.subset_cons_of_subset b (ih h)
    · obtain rfl : line = [b] := List.mem_singleton.mp (heq ▸ h)
      exact List.cons_subset_cons b (List.nil_subset rest)
    · rw [hrest] at ih
      rcases List.mem_cons.mp (heq ▸ h) with rfl | h
      · exact List.cons_subset_cons b (ih List.mem_cons_self)
      · exact List.subset_cons_of_subset b (ih (List.mem_cons_of_mem _ h))

/-- A text without line ends is a line, with either line end after it. -/
theorem splitLines_text {text : Bytes} (hlf : lf ∉ text) (hcr : 13 ∉ text) :
    splitLines (text ++ [lf]) = [text] ∧ splitLines (text ++ [13, lf]) = [text] := by
  induction text with
  | nil => exact ⟨rfl, rfl⟩
  | cons b text ih =>
    rw [List.mem_cons, not_or] at hlf hcr
    obtain ⟨h, h'⟩ := ih hlf.2 hcr.2
    have hb := splitLines_cons (Ne.symm hlf.1) (Ne.symm hcr.1)
    simp only [List.cons_append, hb, h, h', and_self]

/-- Leading blank lines make no difference. -/
theorem rawLoop_blank {rt : Runtime} {idx : Nat} {blanks lines : List Bytes}
    (h : ∀ line ∈ blanks, strip line = []) :
    rawLoop rt idx (blanks ++ lines) = rawLoop rt idx lines := by
  induction blanks with
  | nil => rfl
  | cons line blanks ih =>
    obtain ⟨hline, hblanks⟩ := List.forall_mem_cons.mp h
    rw [List.cons_append, rawLoop, if_pos hline, ih hblanks]

theorem blank_of_splitLines {spaces line : Bytes} (h : isBlank spaces = true)
    (hline : line ∈ splitLines (spaces ++ [lf])) : strip line = [] := by
  rw [strip_eq_nil_iff, isBlank, List.all_eq_true]
  intro b hb
  rcases List.mem_append.mp (subset_of_mem_splitLines hline hb) with hb | hb
  · exact List.all_eq_true.mp h b hb
  · simp_all [isSpace, lf]

/-! ## The prompts of a file -/

namespace Prompt

/-- What a prompt is as JSON. -/
def value : Prompt → Json
  | .str s => .str s
  | .dict d => .obj d

/-- The object that is stored for line `i` of an upload with this prompt. -/
def uploaded (i : Nat) : Prompt → Dict
  | .str s => [("index", .int i), ("prompt", .str s)]
  | .dict d => Dict.setDefault d "index" (.int i)

/-- The keys of a dict are different. -/
def Valid : Prompt → Prop
  | .str _ => True
  | .dict d => (d.map Prod.fst).Nodup

end Prompt

/-- The text is a JSON encoding of the prompt, with its line ends escaped. -/
structure Encodes (rt : Runtime) (prompt : Prompt) (text : List Char) : Prop where
  loads : rt.loads (String.ofList text) = .ok prompt.value
  lf : '\n' ∉ text
  cr : '\r' ∉ text
  delimited : ∃ body, text = '"' :: body ++ ['"'] ∨ text = '\x7b' :: body ++ ['\x7d']

/-- The file holds the prompts in this order, one on a line that ends with LF or CR LF, and
any blank lines. -/
inductive Holds (rt : Runtime) : List Prompt → Bytes → Prop where
  | nil : Holds rt [] []
  | blank {prompts : List Prompt} {spaces file : Bytes} (h : isBlank spaces = true)
      (rest : Holds rt prompts file) : Holds rt prompts (spaces ++ lf :: file)
  | line {prompt : Prompt} {text : List Char} {prompts : List Prompt} {cr file : Bytes}
      (h : Encodes rt prompt text) (hcr : cr = [] ∨ cr = [13]) (rest : Holds rt prompts file) :
      Holds rt (prompt :: prompts) (encodeUtf8 text ++ cr ++ lf :: file)

variable {rt : Runtime} {prompt : Prompt} {prompts : List Prompt} {text : List Char}
  {file : Bytes} {idx : Nat}

theorem strip_delimited {first last : UInt8} (hfirst : isSpace first = false)
    (hlast : isSpace last = false) (body : Bytes) :
    strip (first :: body ++ [last]) = first :: body ++ [last] := by
  rw [strip, List.cons_append, List.dropWhile_cons_of_neg (by simp [hfirst]),
    ← List.cons_append, List.rdropWhile_concat_neg _ _ _ (by simp [hlast])]

/-- The text is a line that `strip` leaves as it is. -/
theorem Encodes.strip_eq (h : Encodes rt prompt text) :
    encodeUtf8 text ≠ [] ∧ strip (encodeUtf8 text) = encodeUtf8 text := by
  have encode (first last : Char) (body : List Char)
      (hfirst : ∃ b, String.utf8EncodeChar first = [b] ∧ isSpace b = false)
      (hlast : ∃ b, String.utf8EncodeChar last = [b] ∧ isSpace b = false) :
      encodeUtf8 (first :: body ++ [last]) ≠ [] ∧
        strip (encodeUtf8 (first :: body ++ [last])) = encodeUtf8 (first :: body ++ [last]) := by
    obtain ⟨b, hb, hfirst⟩ := hfirst
    obtain ⟨b', hb', hlast⟩ := hlast
    have htext : encodeUtf8 (first :: body ++ [last]) = b :: encodeUtf8 body ++ [b'] := by
      simp [encodeUtf8, hb, hb']
    rw [htext]
    exact ⟨by simp, strip_delimited hfirst hlast _⟩
  obtain ⟨body, rfl | rfl⟩ := h.delimited
  · exact encode _ _ body ⟨34, by decide, by decide⟩ ⟨34, by decide, by decide⟩
  · exact encode _ _ body ⟨123, by decide, by decide⟩ ⟨125, by decide, by decide⟩

theorem Encodes.normalizeLine_eq (h : Encodes rt prompt text)
    (hstr : ∀ s, rt.str (.str s) = s) :
    normalizeLine rt idx (String.ofList text) = .ok (prompt.uploaded idx) := by
  rw [normalizeLine, h.loads]
  cases prompt with
  | str s => simp [Prompt.value, Prompt.uploaded, hstr]
  | dict d => rfl

theorem Encodes.rawLoop_cons (h : Encodes rt prompt text) (hstr : ∀ s, rt.str (.str s) = s)
    (lines : List Bytes) : rawLoop rt idx (encodeUtf8 text :: lines) = do
      let line ← rt.dumpsLine (prompt.uploaded idx)
      let out ← rawLoop rt (idx + 1) lines
      return line :: out := by
  obtain ⟨hne, hstrip⟩ := h.strip_eq
  rw [rawLoop, hstrip, if_neg hne, decodeLine, decodeUtf8_encodeUtf8]
  simp only [h.normalizeLine_eq hstr, Bind.bind, Except.bind]

/-- What `upload_raw_ndjson` writes for the prompts of a file. -/
theorem rawLoop_of_holds (h : Holds rt prompts file) (hstr : ∀ s, rt.str (.str s) = s) :
    rawLoop rt idx (splitLines file) =
      ((prompts.zipIdx idx).map fun p => p.1.uploaded p.2).mapM rt.dumpsLine := by
  induction h generalizing idx with
  | nil => rfl
  | blank h _ ih =>
    rw [splitLines_append, rawLoop_blank fun line => blank_of_splitLines h, ih]
  | @line prompt text prompts cr file h hcr _ ih =>
    have hlf := lf_notMem_encode h.lf
    have hcr' := notMem_encode (b := 13) (by decide) rfl h.cr
    have hline : splitLines (encodeUtf8 text ++ cr ++ [lf]) = [encodeUtf8 text] := by
      rcases hcr with rfl | rfl
      · simpa using (splitLines_text hlf hcr').1
      · simpa using (splitLines_text hlf hcr').2
    rw [splitLines_append, hline, List.singleton_append, h.rawLoop_cons hstr, ih,
      List.zipIdx_cons, List.map_cons, List.mapM_cons]

/-! ## Two ways to write the same objects -/

namespace Dict

theorem lookup_set (d : Dict) (key key' : String) (value : Json) :
    (d.set key value).lookup key' = if key' = key then some value else d.lookup key' := by
  split_ifs with h
  · subst h
    unfold set
    split_ifs with hhas
    · induction d with
      | nil => simp at hhas
      | cons item d ih =>
        by_cases hkey : item.1 = key'
        · simp [hkey]
        · have hbeq : (key' == item.1) = false := beq_false_of_ne (Ne.symm hkey)
          rw [List.lookup_cons, hbeq] at hhas
          rw [List.map_cons, if_neg hkey, List.lookup_cons, hbeq]
          exact ih hhas
    · have hnone : d.lookup key' = none := Option.not_isSome_iff_eq_none.mp hhas
      simp [List.lookup_append, hnone]
  · exact lookup_set_of_ne h

theorem lookup_merge_of_nodup {d other : Dict} (h : (other.map Prod.fst).Nodup) (key : String) :
    (d.merge other).lookup key = (other.lookup key).or (d.lookup key) := by
  unfold merge
  induction other generalizing d with
  | nil => rfl
  | cons item other ih =>
    rw [List.map_cons, List.nodup_cons] at h
    rw [List.foldl_cons, ih h.2, lookup_set, List.lookup_cons]
    by_cases hkey : key = item.1
    · have hnone : other.lookup item.1 = none := by
        rw [List.lookup_eq_none_iff]
        intro p hp
        have hne : item.1 ≠ p.1 := fun heq => h.1 (heq ▸ List.mem_map_of_mem hp)
        simpa using hne
      simp [hkey, hnone]
    · simp [hkey, beq_false_of_ne hkey]

theorem lookup_setDefault_eq (d : Dict) (key key' : String) (value : Json) :
    (d.setDefault key value).lookup key' =
      (d.lookup key').or (if key' = key then some value else none) := by
  unfold setDefault
  split_ifs with hhas hkey hkey
  · obtain ⟨found, hfound⟩ := Option.isSome_iff_exists.mp hhas
    rw [hkey, hfound, Option.some_or]
  · rw [Option.or_none]
  · simp [List.lookup_append, hkey]
  · simp [List.lookup_append, List.lookup_cons, beq_false_of_ne hkey]

theorem mem_set {d : Dict} {key : String} {value : Json} {item : String × Json} :
    item ∈ d.set key value ↔ item = (key, value) ∨ item ∈ d ∧ item.1 ≠ key := by
  unfold set
  split_ifs with hhas
  · obtain ⟨found, hfound⟩ := Option.isSome_iff_exists.mp hhas
    have hmem : (key, found) ∈ d := by
      obtain ⟨before, after, rfl, -⟩ := List.lookup_eq_some_iff.mp hfound
      simp
    rw [List.mem_map]
    constructor
    · rintro ⟨other, hother, rfl⟩
      split_ifs with hkey
      · exact .inl rfl
      · exact .inr ⟨hother, hkey⟩
    · rintro (rfl | ⟨hitem, hkey⟩)
      · exact ⟨_, hmem, if_pos rfl⟩
      · exact ⟨item, hitem, if_neg hkey⟩
  · have hnone (hitem : item ∈ d) : item.1 ≠ key := by
      have hne := List.lookup_eq_none_iff.mp (Option.not_isSome_iff_eq_none.mp hhas) item hitem
      exact fun heq => by simp [heq] at hne
    rw [List.mem_append, List.mem_singleton, or_comm, and_iff_left_of_imp hnone]

theorem mem_merge {d other : Dict} (h : (other.map Prod.fst).Nodup) {item : String × Json} :
    item ∈ d.merge other ↔ item ∈ other ∨ item ∈ d ∧ item.1 ∉ other.map Prod.fst := by
  unfold merge
  induction other generalizing d with
  | nil => simp
  | cons first other ih =>
    rw [List.map_cons, List.nodup_cons] at h
    rw [List.foldl_cons, ih h.2, mem_set, List.mem_cons, List.map_cons, List.mem_cons, not_or]
    constructor
    · rintro (hitem | ⟨rfl | ⟨hitem, hne⟩, hlater⟩)
      · exact .inl (.inr hitem)
      · exact .inl (.inl rfl)
      · exact .inr ⟨hitem, hne, hlater⟩
    · rintro ((rfl | hitem) | ⟨hitem, hne, hlater⟩)
      · exact .inr ⟨.inl rfl, h.1⟩
      · exact .inl hitem
      · exact .inr ⟨.inr ⟨hitem, hne⟩, hlater⟩

end Dict

/-! ### Lone surrogates -/

theorem lone_obj (rt : Runtime) (d : Dict) : rt.lone (.obj d) =
    d.any fun item => item.1.toList.any rt.surrogate || rt.lone item.2 :=
  Json.any_dumps_obj rt.ascii d

@[simp] theorem lone_int (rt : Runtime) (n : Int) : rt.lone (.int n) = false :=
  Json.any_dumps_int rt.ascii n

theorem lone_str (rt : Runtime) (s : String) : rt.lone (.str s) = s.toList.any rt.surrogate :=
  Json.any_dumpsStr rt.ascii s

theorem lone_setDefault (rt : Runtime) (d : Dict) (n : Int) :
    rt.lone (.obj (d.setDefault "index" (.int n))) = rt.lone (.obj d) := by
  unfold Dict.setDefault
  split
  · rfl
  · rw [lone_obj, lone_obj, List.any_append]
    simp [rt.ascii]

theorem lone_uploaded (rt : Runtime) (prompt : Prompt) (i : Nat) :
    rt.lone (.obj (prompt.uploaded i)) = rt.lone prompt.value := by
  cases prompt with
  | str s =>
    rw [Prompt.uploaded, lone_obj]
    simp [rt.ascii, Prompt.value]
  | dict d => exact lone_setDefault rt d i

theorem lone_object (rt : Runtime) (h : prompt.Valid) (i : Nat) :
    rt.lone (.obj (prompt.object i)) = rt.lone prompt.value := by
  cases prompt with
  | str s => exact lone_uploaded rt (.str s) i
  | dict d =>
    rw [Prompt.object, lone_setDefault, Prompt.value, lone_obj, lone_obj, Bool.eq_iff_iff,
      List.any_eq_true, List.any_eq_true]
    constructor
    · rintro ⟨item, hitem, hlone⟩
      rcases (Dict.mem_merge h).mp hitem with hitem | ⟨hitem, -⟩
      · exact ⟨item, hitem, hlone⟩
      · obtain rfl := List.mem_singleton.mp hitem
        simp [rt.ascii] at hlone
    · rintro ⟨item, hitem, hlone⟩
      exact ⟨item, (Dict.mem_merge h).mpr (.inl hitem), hlone⟩

/-- Both writers give line `i` the same keys and values. -/
theorem lookup_object (h : prompt.Valid) (i : Nat) (key : String) :
    (prompt.object i).lookup key = (prompt.uploaded i).lookup key := by
  cases prompt with
  | str s => rfl
  | dict d =>
    simp only [Prompt.object, Prompt.uploaded, Dict.lookup_setDefault_eq,
      Dict.lookup_merge_of_nodup h]
    by_cases hkey : key = "index" <;> cases d.lookup key <;> simp [hkey]

/-- The JSON values of the lines of an object. -/
def objects (rt : Runtime) (body : Bytes) : Except PyError (List Json) :=
  (promptLines body).mapM fun line => do
    let text ← decodeLine line
    rt.loads text

theorem decodeLine_dumpsDict (d : Dict) : decodeLine (dumpsDict d) = .ok (dictText d) := by
  rw [decodeLine, dumpsDict, decodeUtf8_encodeUtf8]
  rfl

theorem objects_joinLines {ds : List Dict}
    (h : ∀ d ∈ ds, rt.loads (dictText d) = .ok (.obj d)) :
    objects rt (joinLines (ds.map dumpsDict)) = .ok (ds.map .obj) := by
  rw [objects, promptLines_joinLines (List.forall_mem_map.mpr fun d _ => dumpsDict_line d)]
  induction ds with
  | nil => rfl
  | cons d ds ih =>
    obtain ⟨hd, hds⟩ := List.forall_mem_cons.mp h
    rw [List.map_cons, List.mapM_cons, ih hds, decodeLine_dumpsDict]
    simp only [Bind.bind, Except.bind, hd]
    rfl

theorem uploadRawNdjson_of_holds (h : Holds rt prompts file) (hstr : ∀ s, rt.str (.str s) = s) :
    uploadRawNdjson rt file =
      if ∃ prompt ∈ prompts, rt.lone prompt.value = true then .error .unicodeEncodeError
      else .ok (joinLines ((prompts.mapIdx Prompt.uploaded).map dumpsDict), prompts.length) := by
  have hany : (((prompts.zipIdx 0).map fun p => p.1.uploaded p.2).any
      fun d => rt.lone (.obj d)) = true ↔ ∃ prompt ∈ prompts, rt.lone prompt.value = true := by
    simp only [List.any_map, Function.comp_def, lone_uploaded, List.any_eq_true]
    exact ⟨fun ⟨p, hp, hlone⟩ => ⟨p.1, List.fst_mem_of_mem_zipIdx hp, hlone⟩,
      fun ⟨prompt, hprompt, hlone⟩ => by
        obtain ⟨i, hi⟩ := List.getElem?_of_mem hprompt
        exact ⟨(prompt, i), List.mem_zipIdx_iff_getElem?.mpr hi, hlone⟩⟩
  rw [uploadRawNdjson, rawLoop_of_holds h hstr, mapM_dumpsLine]
  simp only [hany]
  split
  · rfl
  · simp [Bind.bind, Except.bind, Pure.pure, Except.pure, List.mapIdx_eq_zipIdx_map]

variable (rt) in
theorem uploadPromptsNdjson_of_valid (h : ∀ prompt ∈ prompts, prompt.Valid) :
    uploadPromptsNdjson rt prompts =
      if ∃ prompt ∈ prompts, rt.lone prompt.value = true then .error .unicodeEncodeError
      else .ok (joinLines ((prompts.mapIdx Prompt.object).map dumpsDict), prompts.length) := by
  have hany : ((prompts.mapIdx Prompt.object).any fun d => rt.lone (.obj d)) = true ↔
      ∃ prompt ∈ prompts, rt.lone prompt.value = true := by
    simp only [List.any_eq_true, List.mem_mapIdx]
    constructor
    · rintro ⟨-, ⟨i, hi, rfl⟩, hlone⟩
      have hmem := List.getElem_mem hi
      exact ⟨_, hmem, (lone_object rt (h _ hmem) i).symm.trans hlone⟩
    · rintro ⟨prompt, hprompt, hlone⟩
      obtain ⟨i, hi, rfl⟩ := List.getElem_of_mem hprompt
      exact ⟨_, ⟨i, hi, rfl⟩, (lone_object rt (h _ hprompt) i).trans hlone⟩
  rw [uploadPromptsNdjson_eq]
  simp only [hany]

/-- A list of prompts and a file that holds them are the same input: the counts agree, and line
by line the stored objects have the same keys and values. A prompt that UTF-8 has no text for is
refused in both. -/
theorem uploads_agree (h : Holds rt prompts file) (hvalid : ∀ prompt ∈ prompts, prompt.Valid)
    (hstr : ∀ s, rt.str (.str s) = s)
    (hloads : ∀ (i : Nat) (prompt : Prompt), prompts[i]? = some prompt →
      ∀ d ∈ [prompt.object i, prompt.uploaded i], rt.loads (dictText d) = .ok (.obj d)) :
    ((∃ prompt ∈ prompts, rt.lone prompt.value = true) ∧
      uploadRawNdjson rt file = .error .unicodeEncodeError ∧
      uploadPromptsNdjson rt prompts = .error .unicodeEncodeError) ∨
    ((∀ prompt ∈ prompts, rt.lone prompt.value = false) ∧
      ∃ body body' inline uploaded,
        uploadRawNdjson rt file = .ok (body, prompts.length) ∧
        uploadPromptsNdjson rt prompts = .ok (body', prompts.length) ∧
        objects rt body' = .ok (inline.map .obj) ∧
        objects rt body = .ok (uploaded.map .obj) ∧
        List.Forall₂ (fun (d d' : Dict) => ∀ key, d.lookup key = d'.lookup key)
          inline uploaded) := by
  have hraw := uploadRawNdjson_of_holds h hstr
  have hinline := uploadPromptsNdjson_of_valid rt hvalid
  by_cases hlone : ∃ prompt ∈ prompts, rt.lone prompt.value = true
  · rw [if_pos hlone] at hraw hinline
    exact .inl ⟨hlone, hraw, hinline⟩
  rw [if_neg hlone] at hraw hinline
  refine .inr ⟨by simpa using hlone, _, _, prompts.mapIdx Prompt.object,
    prompts.mapIdx Prompt.uploaded, hraw, hinline, ?_, ?_, ?_⟩
  · refine objects_joinLines fun d hd => ?_
    obtain ⟨i, hi, rfl⟩ := List.mem_mapIdx.mp hd
    exact hloads i _ (List.getElem?_eq_getElem hi) _ (by simp)
  · refine objects_joinLines fun d hd => ?_
    obtain ⟨i, hi, rfl⟩ := List.mem_mapIdx.mp hd
    exact hloads i _ (List.getElem?_eq_getElem hi) _ (by simp)
  · rw [List.mapIdx_eq_zipIdx_map, List.mapIdx_eq_zipIdx_map, List.forall₂_map_left_iff,
      List.forall₂_map_right_iff, List.forall₂_same]
    intro p hp key
    exact lookup_object (hvalid p.1 (List.fst_mem_of_mem_zipIdx hp)) p.2 key

/-- `str`, on values without lists and dicts. -/
def pyStr : Json → String
  | .null => "None"
  | .bool b => if b then "True" else "False"
  | .str s => s
  | v => String.ofList v.dumps

/-- A parser that knows the texts of these values. -/
def knowing (values : List Json) : Runtime where
  loads text := match values.find? fun v => String.ofList v.dumps = text with
    | some v => .ok v
    | none => .error .jsonDecodeError
  str := pyStr
  surrogate _ := false
  ascii _ _ := rfl

/-- A string that looks like a number, and a dict with an index of its own. -/
def twoPromptsRt : Runtime :=
  knowing [.str "1", .obj [("index", .int 7)], .obj [("index", .int 0), ("prompt", .str "1")]]

def twoPromptsList : List Prompt := [.str "1", .dict [("index", .int 7)]]

/-- A blank line, the string on a line with CR LF, another blank line, and the dict. -/
def twoPromptsFile : Bytes :=
  [32, 13] ++ lf :: (encodeUtf8 ['"', '1', '"'] ++ [13] ++ lf ::
    ([] ++ lf :: (encodeUtf8 (Json.obj [("index", .int 7)]).dumps ++ [] ++ lf :: [])))

theorem holds_twoPrompts : Holds twoPromptsRt twoPromptsList twoPromptsFile := by
  have hstr : Encodes twoPromptsRt (.str "1") ['"', '1', '"'] :=
    ⟨rfl, by decide, by decide, ['1'], .inl rfl⟩
  have hdict : Encodes twoPromptsRt (.dict [("index", .int 7)])
      (Json.obj [("index", .int 7)]).dumps :=
    ⟨rfl, by decide, by decide, "\"index\": 7".toList, .inr (by decide)⟩
  exact .blank (by decide) (.line hstr (.inr rfl)
    (.blank (by decide) (.line hdict (.inl rfl) .nil)))

theorem uploads_agree_twoPrompts :
    ∃ body body' inline uploaded,
      uploadRawNdjson twoPromptsRt twoPromptsFile = .ok (body, twoPromptsList.length) ∧
      uploadPromptsNdjson twoPromptsRt twoPromptsList = .ok (body', twoPromptsList.length) ∧
      objects twoPromptsRt body' = .ok (inline.map .obj) ∧
      objects twoPromptsRt body = .ok (uploaded.map .obj) ∧
      List.Forall₂ (fun (d d' : Dict) => ∀ key, d.lookup key = d'.lookup key)
        inline uploaded := by
  have hplain : ¬ ∃ prompt ∈ twoPromptsList, twoPromptsRt.lone prompt.value = true := by
    decide +kernel
  refine ((uploads_agree holds_twoPrompts ?_ (fun _ => rfl) ?_).resolve_left
    fun h => hplain h.1).2
  · intro prompt hprompt
    rcases List.mem_pair.mp hprompt with rfl | rfl
    · trivial
    · simp [Prompt.Valid]
  · intro i prompt hi d hd
    match i, hi with
    | 0, rfl =>
      obtain rfl | rfl := List.mem_pair.mp hd <;> rfl
    | 1, rfl =>
      obtain rfl | rfl := List.mem_pair.mp hd <;> rfl
    | i + 2, hi => cases hi

end BatchInference
