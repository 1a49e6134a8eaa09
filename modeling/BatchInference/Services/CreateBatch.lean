import Mathlib.Data.Rat.Defs
import BatchInference.Core.Ingest
import BatchInference.Services.Batches

/-!
# Creating a batch

`create_batch` on its four ingest paths, and what the jobs rely on of its row: the prompts
object has as many lines as the row has items, so that the chunks of the plan, read one after
the other, are the input (`slices_flatten`). The row's columns that no claim on the input
depends on, those of `resolve_model`, are left out.
-/

namespace BatchInference

/-- A float as a rate: a number, an infinity or nan, for which every comparison is false. -/
inductive Rate where
  | number (q : ℚ)
  | inf
  | negInf
  | nan
  deriving DecidableEq, Repr

namespace Rate

/-- The truth value in `rate or default`. -/
def truthy : Rate → Bool
  | number q => q ≠ 0
  | _ => true

/-- `0 < rate` -/
def pos : Rate → Bool
  | number q => 0 < q
  | inf => true
  | negInf | nan => false

/-- `0 <= rate` -/
def nonneg : Rate → Bool
  | number q => 0 ≤ q
  | inf => true
  | negInf | nan => false

/-- `rate <= 0` -/
def nonpos : Rate → Bool
  | number q => q ≤ 0
  | negInf => true
  | inf | nan => false

theorem nonpos_of_pos {rate : Rate} (h : rate.pos = true) : rate.nonpos = false := by
  cases rate with
  | number q => simpa [pos, nonpos] using h
  | inf => rfl
  | negInf | nan => cases h

end Rate

structure Settings where
  defaultChunkSize : Int
  defaultRateLimitRps : Rate
  defaultMaxConcurrency : Int

structure CreateRequest where
  prompts : Option (List Prompt) := none
  rawNdjson : Option Bytes := none
  sourceKey : Option String := none
  promptsUrl : Option String := none
  webhookUrl : Option String := none
  webhookSecret : Option String := none
  chunkSize : Option Int := none
  rateLimitRps : Option Rate := none
  maxConcurrency : Option Int := none
  idempotencyKey : Option String := none

/-- What `create_batch` calls and draws. `object` is the bucket, `fetch` a GET whose status
has been checked, `reads` how `body.read` hands over an object. -/
structure Outer where
  rt : Runtime
  settings : Settings
  object : String → Except PyError Bytes
  fetch : String → Except PyError Bytes
  reads : Bytes → List Bytes
  flatten_reads : ∀ content, (reads content).flatten = content
  batchId : String
  token : String

/-- The row that `create_batch` adds, with the prompts object that it has put. -/
structure NewBatch where
  id : String
  totalItems : Nat
  chunkSize : Int
  webhookUrl : Option String
  webhookSecret : Option String
  webhookStatus : WebhookStatus
  rateLimitRps : Rate
  maxConcurrency : Int
  idempotencyKey : Option String
  prompts : Bytes

/-- `x or None` on a string. -/
def truthy (x : Option String) : Option String := x.filter (· ≠ "")

namespace CreateRequest

def sources (req : CreateRequest) : Nat :=
  req.prompts.isSome.toNat + req.rawNdjson.isSome.toNat + (truthy req.sourceKey).isSome.toNat +
    (truthy req.promptsUrl).isSome.toNat

/-- The object that is put under `prompts_key`, and `total`. -/
def ingest (req : CreateRequest) (w : Outer) : Except PyError (Bytes × Nat) :=
  match req.prompts, req.rawNdjson, truthy req.sourceKey, req.promptsUrl with
  | some prompts, _, _, _ => uploadPromptsNdjson w.rt prompts
  | none, some data, _, _ => uploadRawNdjson w.rt data
  | none, none, some key, _ => do
    let content ← w.object key
    let total ← countNdjsonLines (w.reads content)
    return (content, total)
  | none, none, none, some url => do
    let content ← w.fetch url
    uploadRawNdjson w.rt content
  | none, none, none, none => .error (.other "AssertionError")

def row (req : CreateRequest) (w : Outer) (prompts : Bytes) (total : Nat) : NewBatch where
  id := w.batchId
  totalItems := total
  chunkSize := (req.chunkSize.filter (· ≠ 0)).getD w.settings.defaultChunkSize
  webhookUrl := req.webhookUrl
  webhookSecret :=
    if (truthy req.webhookUrl).isSome ∧ truthy req.webhookSecret = none then some w.token
    else req.webhookSecret
  webhookStatus := if (truthy req.webhookUrl).isSome then .pending else .none
  rateLimitRps := (req.rateLimitRps.filter (·.truthy)).getD w.settings.defaultRateLimitRps
  maxConcurrency := (req.maxConcurrency.filter (· ≠ 0)).getD w.settings.defaultMaxConcurrency
  idempotencyKey := req.idempotencyKey
  prompts := prompts

/-- From the check of the sources to the row that is added. -/
def build (req : CreateRequest) (w : Outer) : Except PyError NewBatch :=
  if req.sources = 0 then
    .error (.valueError "one of prompts, raw_ndjson, source_key, or prompts_url is required")
  else if req.prompts.any (·.isEmpty) then
    .error (.valueError "prompts must be non-empty")
  else do
    let (prompts, total) ← req.ingest w
    if total < 1 then
      .error (.valueError "input must contain at least one prompt line")
    else
      return req.row w prompts total

end CreateRequest

namespace NewBatch

/-- The row's values fit their columns: `Integer`, and `String` of some length. -/
def fits (batch : NewBatch) : Bool :=
  batch.totalItems < 2147483648 &&
  (-2147483648 ≤ batch.chunkSize && batch.chunkSize < 2147483648) &&
  (-2147483648 ≤ batch.maxConcurrency && batch.maxConcurrency < 2147483648) &&
  batch.webhookUrl.all (·.length ≤ 1024) && batch.webhookSecret.all (·.length ≤ 256) &&
  batch.idempotencyKey.all (·.length ≤ 128)

/-- A row has the key already. -/
def clashes (batch : NewBatch) (rows : List NewBatch) : Bool :=
  batch.idempotencyKey.isSome && rows.any (·.idempotencyKey = batch.idempotencyKey)

/-- The INSERT of `session.flush()`. -/
def insert (batch : NewBatch) (rows : List NewBatch) : Except PyError Unit :=
  if !batch.fits then .error (.other "DataError")
  else if batch.clashes rows then .error (.other "IntegrityError")
  else .ok ()

end NewBatch

/-- The lookup; an empty key is no key. -/
def findExisting (rows : List NewBatch) (key : Option String) : Option NewBatch :=
  (truthy key).bind fun key => rows.find? (·.idempotencyKey = some key)

def createBatch (w : Outer) (rows : List NewBatch) (req : CreateRequest) :
    Except PyError NewBatch :=
  match findExisting rows req.idempotencyKey with
  | some existing => .ok existing
  | none => do
    let batch ← req.build w
    batch.insert rows
    return batch

/-! ## A new row -/

variable {w : Outer} {rows : List NewBatch} {req : CreateRequest} {batch : NewBatch}

theorem findExisting_some {key : Option String} {row : NewBatch}
    (h : findExisting rows key = some row) : row ∈ rows ∧ row.idempotencyKey = key := by
  obtain ⟨text, htext, hfind⟩ := Option.bind_eq_some_iff.mp h
  obtain rfl : key = some text := (Option.filter_eq_some_iff.mp htext).1
  exact ⟨List.mem_of_find?_eq_some hfind, by simpa using List.find?_some hfind⟩

theorem findExisting_nil (key : Option String) : findExisting [] key = none := by
  simp [findExisting]

theorem insert_cases (batch : NewBatch) (rows : List NewBatch) :
    batch.insert rows = .ok () ∧ batch.fits = true ∧ batch.clashes rows = false ∨
      ∃ name, batch.insert rows = .error (.other name) ∧
        (batch.fits = false ∨ batch.clashes rows = true) := by
  cases hfits : batch.fits <;> cases hclashes : batch.clashes rows <;>
    simp [NewBatch.insert, hfits, hclashes]

theorem createBatch_cases (h : createBatch w rows req = .ok batch) :
    batch ∈ rows ∨ req.build w = .ok batch ∧ batch.fits = true := by
  unfold createBatch at h
  split at h
  · rename_i existing hexisting
    cases h
    exact .inl (findExisting_some hexisting).1
  · obtain ⟨new, hbuild, h⟩ := bind_ok h
    obtain ⟨_, hinsert, h⟩ := bind_ok h
    cases h
    rcases insert_cases batch rows with ⟨-, hfits, -⟩ | ⟨name, hfails, -⟩
    · exact .inr ⟨hbuild, hfits⟩
    · simp [hfails] at hinsert

theorem build_ok (h : req.build w = .ok batch) : ∃ prompts total,
    req.ingest w = .ok (prompts, total) ∧ 1 ≤ total ∧ batch = req.row w prompts total := by
  unfold CreateRequest.build at h
  split at h
  · cases h
  · split at h
    · cases h
    · obtain ⟨⟨prompts, total⟩, hingest, h⟩ := bind_ok h
      dsimp only at h
      split at h
      · cases h
      · cases h
        exact ⟨prompts, total, hingest, by omega, rfl⟩

theorem texts_of_raw {data prompts : Bytes} {total : Nat}
    (h : uploadRawNdjson w.rt data = .ok (prompts, total)) :
    ∃ texts, (promptLines prompts).mapM decodeUtf8 = some texts ∧ texts.length = total := by
  obtain ⟨out, hout, h⟩ := bind_ok h
  cases h
  obtain ⟨texts, ds, -, -, rfl⟩ := rawLoop_ok hout
  exact ⟨_, texts_joinLines ds, by simp⟩

/-- The prompts object has a line for each item, and all its lines can be decoded. -/
theorem texts_of_ingest {prompts : Bytes} {total : Nat}
    (h : req.ingest w = .ok (prompts, total)) :
    ∃ texts, (promptLines prompts).mapM decodeUtf8 = some texts ∧ texts.length = total := by
  unfold CreateRequest.ingest at h
  split at h
  · cases uploadPromptsNdjson_ok h
    exact ⟨_, texts_joinLines _, by simp⟩
  · exact texts_of_raw h
  · obtain ⟨content, -, h⟩ := bind_ok h
    obtain ⟨count, hcount, h⟩ := bind_ok h
    cases h
    unfold countNdjsonLines at hcount
    split at hcount
    · rename_i texts htexts
      cases hcount
      rw [streamTexts, streamLines_eq, w.flatten_reads] at htexts
      exact ⟨texts, htexts, rfl⟩
    · cases hcount
  · obtain ⟨content, -, h⟩ := bind_ok h
    exact texts_of_raw h
  · cases h

/-! ## The chunks of a new batch -/

/-- The slices of a list, one after the other, are the list. -/
theorem slices_flatten {α : Type} (xs : List α) (size n : Nat) :
    ((List.range n).map fun i => (xs.drop (i * size)).take size).flatten =
      xs.take (n * size) := by
  induction n with
  | zero => simp
  | succ n ih =>
    rw [List.range_succ, List.map_append, List.flatten_append, ih, Nat.succ_mul, List.take_add]
    simp

/-- What `create_batch` has made sure of: its row is a batch as the jobs know it. -/
theorem spec_of_createBatch (h : createBatch w rows req = .ok batch) (hnew : batch ∉ rows) :
    ∃ spec : BatchSpec, spec.id = batch.id ∧ spec.totalItems = batch.totalItems ∧
      spec.chunkSize = batch.chunkSize ∧ spec.webhookUrl = batch.webhookUrl ∧
      spec.prompts = batch.prompts := by
  obtain ⟨hbuild, hfits⟩ := (createBatch_cases h).resolve_left hnew
  obtain ⟨prompts, total, hingest, ht, rfl⟩ := build_ok hbuild
  obtain ⟨texts, htexts, hlength⟩ := texts_of_ingest hingest
  simp only [NewBatch.fits, Bool.and_eq_true, decide_eq_true_eq] at hfits
  refine ⟨⟨w.batchId, total, _, _, prompts, ht, ?_, ?_⟩, rfl, rfl, rfl, rfl, rfl⟩
  · exact hfits.1.1.1.1.1.trans_le (by norm_num)
  · rw [← hlength, (forall₂_of_mapM htexts).length_eq]

/-- The lines that an entry of the plan selects. -/
theorem selectLines_slice {reads : List Bytes} {texts : List String}
    (h : streamTexts reads = some texts) (size i : Nat) :
    selectLines reads ((i : Int) * size) (min (size : Int) (texts.length - (i : Int) * size)) =
      some ((texts.drop (i * size)).take size) := by
  rw [selectLines, selectLoop_eq h, ← Nat.cast_mul]
  generalize i * size = start
  rcases le_total texts.length start with hlen | hlen
  · simp [List.drop_eq_nil_of_le hlen, List.drop_eq_nil_of_le, hlen]
  · have hstop : ((start : Int) + min (size : Int) (texts.length - start) - (0 : Nat)).toNat =
        start + min size (texts.length - start) := by omega
    rw [hstop, List.drop_take]
    simp [List.take_eq_take_iff]

/-- Each chunk of the plan selects its own lines, and together they are the input. -/
theorem ingest_covers (h : createBatch w rows req = .ok batch) (hnew : batch ∉ rows)
    (hc : 1 ≤ batch.chunkSize) :
    ∃ (spec : BatchSpec) (chunks : List BatchChunk) (texts : List String)
      (parts : List (List String)),
      (spec.id = batch.id ∧ spec.totalItems = batch.totalItems ∧
        spec.chunkSize = batch.chunkSize ∧ spec.prompts = batch.prompts) ∧
      streamTexts (w.reads batch.prompts) = some texts ∧ texts.length = batch.totalItems ∧
      createChunkRows spec [] = .ok chunks ∧
      chunks.map (·.chunkIndex) = List.range chunks.length ∧
      List.Forall₂ (fun (c : BatchChunk) part =>
        (selectLines (w.reads batch.prompts) c.offset c.limit = some part ∧
          ∀ loads, readLineRange loads (w.reads batch.prompts) c.offset c.limit =
            part.mapM loads) ∧
        (part.length : Int) = c.limit ∧ 1 ≤ c.limit) chunks parts ∧
      parts.flatten = texts := by
  obtain ⟨spec, hid, htotal, hsize, -, hprompts⟩ := spec_of_createBatch h hnew
  obtain ⟨hbuild, -⟩ := (createBatch_cases h).resolve_left hnew
  obtain ⟨prompts, total, hingest, -, rfl⟩ := build_ok hbuild
  obtain ⟨texts, htexts, rfl⟩ := texts_of_ingest hingest
  obtain ⟨size, hsize'⟩ := Int.eq_ofNat_of_zero_le (by omega : 0 ≤ spec.chunkSize)
  have hpos : 1 ≤ size := by omega
  have hlt : texts.length < 2 ^ 53 := by
    have := spec.totalItems_lt
    rw [htotal] at this
    exact this.trans (by norm_num)
  have hstream : streamTexts (w.reads prompts) = some texts := by
    rw [streamTexts, streamLines_eq, w.flatten_reads, htexts]
  have hchunks : createChunkRows spec [] = .ok
      ((List.range ((texts.length + size - 1) / size)).map fun (i : Nat) => BatchChunk.ofPlan
        (i, (i : Int) * size, min (size : Int) (texts.length - (i : Int) * size))) := by
    have hplan := planChunks_eq hlt hpos
    rw [createChunkRows, if_neg (by simp), htotal, hsize']
    simp [CreateRequest.row, hplan, Function.comp_def, Bind.bind, Except.bind, Pure.pure,
      Except.pure]
  refine ⟨spec, _, texts, (List.range ((texts.length + size - 1) / size)).map fun i =>
    (texts.drop (i * size)).take size, ⟨hid, htotal, hsize, hprompts⟩, hstream, rfl, hchunks,
    ?_, ?_, ?_⟩
  · simp [Function.comp_def, BatchChunk.ofPlan]
  · rw [List.forall₂_map_left_iff, List.forall₂_map_right_iff, List.forall₂_same]
    intro i hi
    have hlines := lt_of_lt_plan (List.mem_range.mp hi)
    have hselect := selectLines_slice hstream size i
    refine ⟨⟨hselect, fun loads => ?_⟩, ?_, ?_⟩
    · exact (readLineRange_eq ..).trans <|
        congrArg (fun lines => lines.bind fun texts => texts.mapM loads) hselect
    · simp only [BatchChunk.ofPlan, List.length_take, List.length_drop]
      omega
    · simp only [BatchChunk.ofPlan]
      omega
  · rw [slices_flatten, List.take_of_length_le (le_plan_mul hpos)]

/-- A bucket and a web without objects; no text is JSON. -/
def plainText : Outer where
  rt :=
    { loads := fun _ => .error .jsonDecodeError
      str := fun _ => ""
      surrogate := fun _ => false
      ascii := fun _ _ => rfl }
  settings :=
    { defaultChunkSize := 100, defaultRateLimitRps := .number 50, defaultMaxConcurrency := 16 }
  object _ := .error (.other "NoSuchKey")
  fetch _ := .error (.other "HTTPStatusError")
  reads := List.singleton
  flatten_reads := by simp [List.singleton]
  batchId := "01"
  token := "secret"

/-- Two lines of text, a blank one between them, one line end CR LF. -/
def twoLines : CreateRequest :=
  { rawNdjson := some [97, 13, 10, 10, 32, 98], chunkSize := some 1 }

theorem ingest_covers_twoLines : ∃ batch,
    createBatch plainText [] twoLines = .ok batch ∧ batch.totalItems = 2 ∧
    ∃ (spec : BatchSpec) (chunks : List BatchChunk) (texts : List String)
      (parts : List (List String)),
      (spec.id = batch.id ∧ spec.totalItems = batch.totalItems ∧
        spec.chunkSize = batch.chunkSize ∧ spec.prompts = batch.prompts) ∧
      streamTexts (plainText.reads batch.prompts) = some texts ∧
      texts.length = batch.totalItems ∧
      createChunkRows spec [] = .ok chunks ∧
      chunks.map (·.chunkIndex) = List.range chunks.length ∧
      List.Forall₂ (fun (c : BatchChunk) part =>
        (selectLines (plainText.reads batch.prompts) c.offset c.limit = some part ∧
          ∀ loads, readLineRange loads (plainText.reads batch.prompts) c.offset c.limit =
            part.mapM loads) ∧
        (part.length : Int) = c.limit ∧ 1 ≤ c.limit) chunks parts ∧
      parts.flatten = texts := by
  have hcreate : (createBatch plainText [] twoLines).toOption.map
      (fun batch => (batch.totalItems, batch.chunkSize)) = some (2, 1) := by decide +kernel
  obtain ⟨batch, h, hseen⟩ := ok_of_toOption hcreate
  obtain ⟨htotal, hsize⟩ := Prod.mk.inj hseen
  exact ⟨batch, h, htotal, ingest_covers h (by simp) hsize.ge⟩

end BatchInference
