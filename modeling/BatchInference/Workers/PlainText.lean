import BatchInference.Core.Utf8
import BatchInference.Providers.OpenAI

/-!
# Plain text

A line of an uploaded file that is neither a JSON object nor a JSON string is plain text, also
where it happens to be some other JSON: `upload_raw_ndjson` then stores `str` of the parsed
value for its prompt.
-/

namespace BatchInference

/-- `json.loads` against the values that texts stand for. It may raise something else on any
text: it has a limit for the digits of a number, and for the depth. -/
structure Parses (rt : Runtime) (json : String → Option Json) : Prop where
  ok : ∀ {text v}, rt.loads text = .ok v → json text = some v
  decodeError : ∀ {text}, rt.loads text = .error .jsonDecodeError → json text = none

/-- Neither a JSON object nor a JSON string. -/
def Plain (json : String → Option Json) (text : String) : Prop :=
  ∀ v, json text = some v → (∀ fields, v ≠ .obj fields) ∧ ∀ s, v ≠ .str s

/-- The object that a plain line is to become. -/
def promptDict (i : Nat) (text : String) : Dict := [("index", .int i), ("prompt", .str text)]

/-- Every plain line of the file is stored as its text, at its place, and the request that is
built from the stored line has the text for its prompt. -/
def KeepsPlainText (rt : Runtime) (json : String → Option Json) (up : Upstream) (data : Bytes) :
    Prop :=
  ∀ texts, lineTexts data = some texts → ∀ i text, texts[i]? = some text → Plain json text →
    ∃ body line fields, uploadRawNdjson rt data = .ok (body, texts.length) ∧
      (promptLines body)[i]? = some line ∧ decodeLine line >>= rt.loads = .ok (.obj fields) ∧
      fields = promptDict i text ∧ (up.request fields i).prompt = text

/-- A line on which `json.loads` raises nothing but a `JSONDecodeError`, and which is no JSON
object and no JSON string with a lone surrogate in it. -/
structure Accepted (rt : Runtime) (text : String) : Prop where
  loads : ∀ exc, rt.loads text = .error exc → exc = .jsonDecodeError
  obj : ∀ fields, rt.loads text = .ok (.obj fields) → rt.lone (.obj fields) = false
  str : ∀ s, rt.loads text = .ok (.str s) → rt.lone (.str s) = false

/-- If there is a plain line, then every line is accepted; and `str` of the value of a plain line
is the line. -/
def PrintsBack (rt : Runtime) (json : String → Option Json) (texts : List String) : Prop :=
  ∀ text ∈ texts, Plain json text →
    (∀ other ∈ texts, Accepted rt other) ∧ ∀ v, rt.loads text = .ok v → rt.str v = text

variable {rt : Runtime} {json : String → Option Json} {up : Upstream} {data : Bytes}
  {text : String} {texts : List String} {i : Nat}

/-- The converse of `rawLoop_ok`. -/
theorem rawLoop_of_normalized {lines : List Bytes} {idx : Nat} {ds : List Dict}
    (h : ((lines.map strip).filter (· ≠ [])).mapM decodeUtf8 = some texts)
    (hds : List.Forall₂ (Normalizes rt) (texts.zipIdx idx) ds) :
    rawLoop rt idx lines = .ok (ds.map dumpsDict) := by
  induction lines generalizing idx texts ds with
  | nil =>
    cases h
    cases hds
    rfl
  | cons raw lines ih =>
    by_cases hblank : strip raw = []
    · rw [List.map_cons, List.filter_cons_of_neg (by simpa using hblank)] at h
      rw [rawLoop, if_pos hblank, ih h hds]
    · rw [List.map_cons, List.filter_cons_of_pos (by simpa using hblank)] at h
      obtain ⟨text, rest, htext, hrest, rfl⟩ := mapM_cons_eq_some h
      rw [List.zipIdx_cons] at hds
      cases hds with
      | cons hd hds =>
        have hline : decodeLine (strip raw) = .ok text := by rw [decodeLine, htext]
        rw [rawLoop, if_neg hblank, hline, ih hrest hds]
        simp only [Bind.bind, Except.bind, hd.1, dumpsLine_ok.mpr ⟨hd.2, rfl⟩]
        rfl

/-- What is stored for a plain line. -/
theorem normalizeLine_plain (hparses : Parses rt json) (hplain : Plain json text)
    (hloads : ∀ exc, rt.loads text = .error exc → exc = .jsonDecodeError) : ∃ prompt,
      normalizeLine rt i text = .ok (promptDict i prompt) ∧
      (rt.loads text = .error .jsonDecodeError ∧ prompt = text ∨
        ∃ v, rt.loads text = .ok v ∧ prompt = rt.str v) := by
  cases hv : rt.loads text with
  | error exc =>
    obtain rfl := hloads exc hv
    exact ⟨text, by rw [normalizeLine, hv]; rfl, .inl ⟨rfl, rfl⟩⟩
  | ok v =>
    obtain ⟨hobj, -⟩ := hplain v (hparses.ok hv)
    refine ⟨rt.str v, ?_, .inr ⟨v, rfl, rfl⟩⟩
    rw [normalizeLine, hv]
    cases v with
    | obj fields => exact absurd rfl (hobj fields)
    | _ => rfl

/-- The object that is stored at a plain line's place, if the upload succeeds. -/
theorem stored_of_upload (htexts : lineTexts data = some texts) {body : Bytes} {count : Nat}
    (h : uploadRawNdjson rt data = .ok (body, count)) :
    ∃ ds, List.Forall₂ (Normalizes rt) (texts.zipIdx 0) ds ∧
      promptLines body = ds.map dumpsDict ∧ count = texts.length := by
  obtain ⟨out, hout, h⟩ := bind_ok h
  cases h
  obtain ⟨texts', ds, htexts', hds, rfl⟩ := rawLoop_ok hout
  obtain rfl : texts' = texts := Option.some.inj (htexts'.symm.trans htexts)
  refine ⟨ds, hds, promptLines_joinLines (List.forall_mem_map.mpr fun d _ => dumpsDict_line d), ?_⟩
  simpa using hds.length_eq.symm

theorem upload_of_normalized (htexts : lineTexts data = some texts) {ds : List Dict}
    (hds : List.Forall₂ (Normalizes rt) (texts.zipIdx 0) ds) :
    uploadRawNdjson rt data = .ok (joinLines (ds.map dumpsDict), texts.length) := by
  rw [uploadRawNdjson, rawLoop_of_normalized htexts hds]
  simp [Bind.bind, Except.bind, Pure.pure, Except.pure, ← hds.length_eq]

theorem exists_forall₂ {α β : Type} {R : α → β → Prop} (xs : List α)
    (h : ∀ x ∈ xs, ∃ y, R x y) : ∃ ys, List.Forall₂ R xs ys := by
  induction xs with
  | nil => exact ⟨[], .nil⟩
  | cons x xs ih =>
    obtain ⟨⟨y, hy⟩, hxs⟩ := List.forall_mem_cons.mp h
    obtain ⟨ys, hys⟩ := ih hxs
    exact ⟨y :: ys, .cons hy hys⟩

theorem lone_promptDict (rt : Runtime) (i : Nat) (text : String) :
    rt.lone (.obj (promptDict i text)) = text.toList.any rt.surrogate :=
  (lone_uploaded rt (.str text) i).trans (lone_str rt text)

/-- An accepted line is stored, if `str` of what a plain one stands for is the line. -/
theorem exists_normalized (h : Accepted rt text) (hparses : Parses rt json)
    (hrt : ∀ s, rt.str (.str s) = s) (hclean : text.toList.any rt.surrogate = false)
    (hprints : Plain json text → ∀ v, rt.loads text = .ok v → rt.str v = text) :
    ∃ d, Normalizes rt (text, i) d := by
  by_cases hplain : Plain json text
  · obtain ⟨prompt, hprompt, hfrom⟩ := normalizeLine_plain (i := i) hparses hplain h.loads
    obtain rfl : prompt = text := by
      rcases hfrom with ⟨-, rfl⟩ | ⟨v, hv, rfl⟩
      · rfl
      · exact hprints hplain v hv
    exact ⟨_, hprompt, (lone_promptDict rt i prompt).trans hclean⟩
  · unfold Normalizes normalizeLine
    cases hv : rt.loads text with
    | error exc =>
      obtain rfl := h.loads exc hv
      exact ⟨_, rfl, (lone_promptDict rt i text).trans hclean⟩
    | ok v =>
      cases v with
      | obj fields => exact ⟨_, rfl, (lone_setDefault rt fields i).trans (h.obj fields hv)⟩
      | str s =>
        refine ⟨_, rfl, (lone_promptDict rt i (rt.str (.str s))).trans ?_⟩
        rw [hrt, ← lone_str]
        exact h.str s hv
      | _ =>
        refine absurd (fun v' hv' => ?_) hplain
        obtain rfl := Option.some.inj ((hparses.ok hv).symm.trans hv')
        simp

theorem accepted_of_normalized (hrt : ∀ s, rt.str (.str s) = s) {d : Dict}
    (h : Normalizes rt (text, i) d) : Accepted rt text := by
  obtain ⟨hd, hlone⟩ := h
  unfold normalizeLine at hd
  refine ⟨fun exc hexc => ?_, fun fields hv => ?_, fun s hv => ?_⟩
  · by_contra hne
    rw [hexc] at hd
    cases exc with
    | jsonDecodeError => exact hne rfl
    | _ => cases hd
  · rw [hv] at hd
    obtain rfl := Except.ok.inj hd
    exact (lone_setDefault rt fields i).symm.trans hlone
  · rw [hv] at hd
    obtain rfl := Except.ok.inj hd
    rw [lone_str, ← lone_promptDict rt i]
    rwa [hrt] at hlone

/-- The dict that is stored for line `i`. -/
theorem normalized_at {ds : List Dict}
    (hds : List.Forall₂ (Normalizes rt) (texts.zipIdx 0) ds) (hi : texts[i]? = some text) :
    ∃ d, ds[i]? = some d ∧ Normalizes rt (text, i) d := by
  obtain ⟨hlength, hget⟩ := List.forall₂_iff_get.mp hds
  obtain ⟨hlt, rfl⟩ := List.getElem?_eq_some_iff.mp hi
  have hlt' : i < ds.length := by rwa [← hlength, List.length_zipIdx]
  have hline := hget i (by simpa using hlt) hlt'
  refine ⟨ds[i], List.getElem?_eq_getElem hlt', ?_⟩
  simpa using hline

/-- The dict that is stored for a plain line. -/
theorem stored_plain {ds : List Dict} (hparses : Parses rt json)
    (hds : List.Forall₂ (Normalizes rt) (texts.zipIdx 0) ds) (hi : texts[i]? = some text)
    (hplain : Plain json text)
    (haccepted : Accepted rt text) : ∃ prompt, ds[i]? = some (promptDict i prompt) ∧
      (rt.loads text = .error .jsonDecodeError ∧ prompt = text ∨
        ∃ v, rt.loads text = .ok v ∧ prompt = rt.str v) := by
  obtain ⟨d, hd, hstored⟩ := normalized_at hds hi
  obtain ⟨prompt, hprompt, hfrom⟩ := normalizeLine_plain hparses hplain haccepted.loads
  obtain rfl := Except.ok.inj (hstored.1.symm.trans hprompt)
  exact ⟨prompt, hd, hfrom⟩

theorem ne_empty_of_mem (htexts : lineTexts data = some texts) (h : text ∈ texts) :
    text ≠ "" := by
  rintro rfl
  obtain ⟨hlength, hget⟩ := List.forall₂_iff_get.mp (forall₂_of_mapM htexts)
  obtain ⟨i, hi, htext⟩ := List.getElem_of_mem h
  have hdecode := eq_encode_of_decode (hget i (by omega) hi)
  rw [List.get_eq_getElem, List.get_eq_getElem, htext] at hdecode
  have hmem := List.getElem_mem (l := ((splitLines data).map strip).filter (· ≠ [])) (n := i)
    (by omega)
  rw [hdecode] at hmem
  simp at hmem

/-- The request of a stored prompt. -/
theorem prompt_request (hstr : ∀ s, up.str (.str s) = s) (hne : text ≠ "") :
    (up.request (promptDict i text) i).prompt = text := by
  have hprompt : getItem (promptDict i text) "prompt" = .str text := rfl
  simp [Upstream.request, promptOf, hprompt, Json.truthy, hne, hstr]

/-- The texts that may be stored as the prompt of a plain line. -/
def Candidate (rt : Runtime) (text prompt : String) : Prop :=
  prompt = text ∨ ∃ v, rt.loads text = .ok v ∧ prompt = rt.str v

/-- Plain text is kept if and only if, where there is any, no line makes `json.loads` raise
anything but a `JSONDecodeError`, no object and no string among the lines has a lone surrogate,
and each plain line is what `str` prints of its value. The characters of the file stand for
themselves. -/
theorem keeps_plain_text_iff {content : String} (hdata : decodeUtf8 data = some content)
    (hclean : content.toList.any rt.surrogate = false) (hparses : Parses rt json)
    (hrt : ∀ s, rt.str (.str s) = s) (hstr : ∀ s, up.str (.str s) = s)
    (hdumps : ∀ texts, lineTexts data = some texts → ∀ (i : Nat) text, texts[i]? = some text →
      ∀ prompt, Candidate rt text prompt →
        rt.loads (dictText (promptDict i prompt)) = .ok (.obj (promptDict i prompt))) :
    KeepsPlainText rt json up data ↔
      ∀ texts, lineTexts data = some texts → PrintsBack rt json texts := by
  obtain ⟨texts, htexts, hsub⟩ := exists_lineTexts hdata
  have clean {line : String} (hline : line ∈ texts) : line.toList.any rt.surrogate = false := by
    rw [List.any_eq_false] at hclean ⊢
    exact fun c hc => hclean c (hsub line hline hc)
  constructor
  · intro h texts' htexts' text hmem hplain
    obtain rfl : texts = texts' := Option.some.inj (htexts.symm.trans htexts')
    obtain ⟨i, hi⟩ := List.getElem?_of_mem hmem
    obtain ⟨body, line, fields, hupload, hline, hloads, rfl, -⟩ := h _ htexts i text hi hplain
    obtain ⟨ds, hds, hbody, -⟩ := stored_of_upload htexts hupload
    have haccepted : ∀ other ∈ texts, Accepted rt other := by
      intro other hother
      obtain ⟨k, hk⟩ := List.getElem?_of_mem hother
      obtain ⟨d, -, hd⟩ := normalized_at hds hk
      exact accepted_of_normalized hrt hd
    refine ⟨haccepted, fun v hv => ?_⟩
    obtain ⟨prompt, hd, ⟨herror, -⟩ | ⟨v', hv', rfl⟩⟩ :=
      stored_plain hparses hds hi hplain (haccepted text hmem)
    · rw [hv] at herror
      cases herror
    · obtain rfl : v = v' := Except.ok.inj (hv.symm.trans hv')
      have hline' : line = dumpsDict (promptDict i (rt.str v)) := by
        rw [hbody, List.getElem?_map, hd] at hline
        exact (Option.some.inj hline).symm
      rw [hline', decodeLine_dumpsDict] at hloads
      have hread := (hdumps _ htexts i text hi _ (.inr ⟨v, hv, rfl⟩)).symm.trans hloads
      simpa [promptDict] using hread
  · intro h texts' htexts' i text hi hplain
    obtain rfl : texts = texts' := Option.some.inj (htexts.symm.trans htexts')
    have hmem := List.mem_of_getElem? hi
    obtain ⟨haccepted, hprints⟩ := h _ htexts text hmem hplain
    obtain ⟨ds, hds⟩ := exists_forall₂ (texts.zipIdx 0) fun line hline => by
      have hother := List.fst_mem_of_mem_zipIdx hline
      exact exists_normalized (i := line.2) (haccepted _ hother) hparses hrt (clean hother)
        fun hplain' => (h _ htexts _ hother hplain').2
    have hupload := upload_of_normalized htexts hds
    obtain ⟨prompt, hd, hfrom⟩ := stored_plain hparses hds hi hplain (haccepted text hmem)
    obtain rfl : prompt = text := by
      rcases hfrom with ⟨-, rfl⟩ | ⟨v, hv, rfl⟩
      · rfl
      · exact hprints v hv
    refine ⟨_, dumpsDict (promptDict i prompt), _, hupload, ?_, ?_, rfl,
      prompt_request hstr (ne_empty_of_mem htexts hmem)⟩
    · rw [promptLines_joinLines (List.forall_mem_map.mpr fun d _ => dumpsDict_line d),
        List.getElem?_map, hd]
      rfl
    · rw [decodeLine_dumpsDict]
      exact hdumps _ htexts i prompt hi prompt (.inl rfl)

theorem parses_toOption (rt : Runtime) : Parses rt fun text => (rt.loads text).toOption where
  ok h := by rw [h]; rfl
  decodeError h := by rw [h]; rfl

def mockUpstream : Upstream where
  model := "mock-1"
  provider := "mock"
  str := pyStr
  encodes _ := true

/-- Two lines, `hi` and `42`, and a parser for what is read of them. -/
def twoTexts : Bytes := [104, 105, 10, 52, 50, 10]

def twoTextsRt : Runtime :=
  knowing [.int 42, .obj (promptDict 0 "hi"), .obj (promptDict 1 "42")]

theorem keeps_plain_text_iff_twoTexts :
    KeepsPlainText twoTextsRt (fun text => (twoTextsRt.loads text).toOption) mockUpstream
      twoTexts := by
  have hdata : decodeUtf8 twoTexts = some "hi\n42\n" := by decide +kernel
  have hlines : lineTexts twoTexts = some ["hi", "42"] := by decide +kernel
  have hhi : twoTextsRt.loads "hi" = .error .jsonDecodeError := rfl
  have hnumber : twoTextsRt.loads "42" = .ok (.int 42) := rfl
  have accepted : Accepted twoTextsRt "hi" ∧ Accepted twoTextsRt "42" := by
    refine ⟨⟨fun exc hexc => ?_, fun fields hv => ?_, fun s hv => ?_⟩,
      ⟨fun exc hexc => ?_, fun fields hv => ?_, fun s hv => ?_⟩⟩
    · exact (Except.error.inj (hhi.symm.trans hexc)).symm
    · cases hhi.symm.trans hv
    · cases hhi.symm.trans hv
    · cases hnumber.symm.trans hexc
    · cases hnumber.symm.trans hv
    · cases hnumber.symm.trans hv
  refine (keeps_plain_text_iff hdata (by decide +kernel) (parses_toOption _) (fun _ => rfl)
    (fun _ => rfl) fun texts htexts i text hi prompt hprompt => ?_).mpr
    fun texts htexts text hmem hplain => ⟨?_, fun v hv => ?_⟩
  all_goals obtain rfl := Option.some.inj (hlines.symm.trans htexts)
  · match i, hi with
    | 0, rfl =>
      obtain rfl | ⟨v, hv, -⟩ := hprompt
      · rfl
      · cases hv
    | 1, rfl =>
      obtain rfl | ⟨v, hv, rfl⟩ := hprompt
      · rfl
      · cases hv
        rfl
  · simpa using accepted
  · rcases List.mem_pair.mp hmem with rfl | rfl
    · cases hhi.symm.trans hv
    · obtain rfl := Except.ok.inj (hnumber.symm.trans hv)
      rfl

/-- A parser that reads the escape of a lone surrogate, which the last character stands for. -/
def surrogateRt : Runtime where
  loads text := if text = "\"\\ud800\"" then .ok (.str "\uffff") else .error .jsonDecodeError
  str := pyStr
  surrogate c := c.toNat = 0xffff
  ascii c h := decide_eq_false (by omega)

example : uploadRawNdjson surrogateRt (encodeUtf8 "hi\n\"\\ud800\"\n".toList) =
    .error .unicodeEncodeError := by decide +kernel

def trueRt : Runtime := knowing [.bool true, .obj (promptDict 0 "True")]

/-- The line `true` is plain text, and the provider is sent `True`. -/
theorem true_sent_as_True :
    decodeUtf8 [116, 114, 117, 101] = some "true" ∧
    Plain (fun text => (trueRt.loads text).toOption) "true" ∧
    uploadRawNdjson trueRt [116, 114, 117, 101] =
      .ok (joinLines [dumpsDict (promptDict 0 "True")], 1) ∧
    (mockUpstream.request (promptDict 0 "True") 0).prompt = "True" ∧
    ¬ KeepsPlainText trueRt (fun text => (trueRt.loads text).toOption) mockUpstream
      [116, 114, 117, 101] := by
  have hlines : lineTexts [116, 114, 117, 101] = some ["true"] := by decide +kernel
  have hplain : Plain (fun text => (trueRt.loads text).toOption) "true" := by
    intro v hv
    obtain rfl : Json.bool true = v := Option.some.inj hv
    simp
  have hupload : uploadRawNdjson trueRt [116, 114, 117, 101] =
      .ok (joinLines ([promptDict 0 "True"].map dumpsDict), 1) :=
    upload_of_normalized hlines (.cons ⟨rfl, by decide +kernel⟩ .nil)
  have hloads : trueRt.loads (dictText (promptDict 0 "True")) =
      .ok (.obj (promptDict 0 "True")) := rfl
  refine ⟨by decide +kernel, hplain, hupload, rfl, fun h => ?_⟩
  obtain ⟨body, line, fields, hbody, hline, hread, hfields, -⟩ :=
    h _ hlines 0 "true" rfl hplain
  rw [hupload, Except.ok.injEq, Prod.mk.injEq] at hbody
  rw [← hbody.1, promptLines_joinLines (List.forall_mem_map.mpr fun d _ => dumpsDict_line d)]
    at hline
  obtain rfl := Option.some.inj hline
  rw [decodeLine_dumpsDict] at hread
  have hsame := hloads.symm.trans hread
  simp [hfields, promptDict] at hsame

end BatchInference
