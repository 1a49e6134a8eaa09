import BatchInference.Core.Json
import BatchInference.Library.Lines

/-!
# The object store client

Keys, the NDJSON writers and the streaming reader of `SpacesClient`. Objects are bytes; a
row is a JSON value. `body.read` may cut an object anywhere: the reader takes the list of
its reads, and `streamLines_eq` says that where the cuts fall does not matter.
-/

namespace BatchInference

/-! ## Keys -/

/-- The objects of one batch. -/
inductive ObjectKey where
  | prompts
  | chunk (index : Nat)
  | results
  | manifest
  deriving DecidableEq, Repr

/-- `f"{n:06d}"` -/
def pad6 (n : Nat) : List Char :=
  List.replicate (6 - (Nat.toDigits 10 n).length) '0' ++ Nat.toDigits 10 n

def batchPrefix (batchId : String) : List Char := "batches/".toList ++ batchId.toList

def promptsKey (batchId : String) : List Char := batchPrefix batchId ++ "/prompts.ndjson".toList

def chunkResultKey (batchId : String) (chunkIndex : Nat) : List Char :=
  batchPrefix batchId ++ "/chunks/".toList ++ pad6 chunkIndex ++ ".ndjson".toList

def resultsKey (batchId : String) : List Char := batchPrefix batchId ++ "/results.ndjson".toList

def manifestKey (batchId : String) : List Char := batchPrefix batchId ++ "/manifest.json".toList

def ObjectKey.path (batchId : String) : ObjectKey → List Char
  | .prompts => promptsKey batchId
  | .chunk i => chunkResultKey batchId i
  | .results => resultsKey batchId
  | .manifest => manifestKey batchId

theorem pad6_injective {m n : Nat} (h : pad6 m = pad6 n) : m = n := by
  have value (k : Nat) : Nat.ofDigitChars 10 (pad6 k) 0 = k := by
    simp [pad6, Nat.ofDigitChars_append]
  rw [← value m, h, value n]

/-- The store may be indexed by `ObjectKey`: different keys have different paths. -/
theorem ObjectKey.path_injective (batchId : String) {j k : ObjectKey}
    (h : j.path batchId = k.path batchId) : j = k := by
  have second := congrArg (·[(batchPrefix batchId).length + 1]?) h
  cases j <;> cases k <;>
    simp [path, promptsKey, chunkResultKey, resultsKey, manifestKey] at h second ⊢
  exact pad6_injective h

/-! ## Reading lines -/

/-- What `bytes.strip` removes. -/
def isSpace (b : UInt8) : Bool := b == 32 || (9 ≤ b && b ≤ 13)

def isBlank (line : Bytes) : Bool := line.all isSpace

/-- What `str.strip` removes, and where `str.split` splits. -/
def isUnicodeSpace (c : Char) : Bool :=
  let n := c.toNat
  (9 ≤ n && n ≤ 13) || (28 ≤ n && n ≤ 32) || n = 133 || n = 160 || n = 5760 ||
    (8192 ≤ n && n ≤ 8202) || n = 8232 || n = 8233 || n = 8239 || n = 8287 || n = 12288

/-- `buffer` is what the reads so far have left without a line end. -/
def streamLoop (buffer : Bytes) : List Bytes → List Bytes
  | [] => if isBlank buffer then [] else [buffer]
  | chunk :: reads =>
    let r := Lines.cut lf (buffer ++ chunk)
    r.1.filter (fun line => !isBlank line) ++ streamLoop r.2 reads

/-- `SpacesClient.stream_lines`, before a line is decoded. -/
def streamLines (reads : List Bytes) : List Bytes := streamLoop [] reads

/-- The lines of an object that the reader does not skip. -/
def promptLines (content : Bytes) : List Bytes :=
  (Lines.pieces lf content).filter fun line => !isBlank line

theorem streamLoop_eq {buffer : Bytes} (h : lf ∉ buffer) (reads : List Bytes) :
    streamLoop buffer reads = promptLines (buffer ++ reads.flatten) := by
  induction reads generalizing buffer with
  | nil =>
    cases hb : isBlank buffer <;>
      simp [streamLoop, promptLines, Lines.pieces, Lines.cut_of_notMem lf h, hb]
  | cons chunk reads ih =>
    rw [streamLoop, ih (Lines.notMem_cut_snd lf _), promptLines, promptLines,
      List.flatten_cons, ← List.append_assoc,
      Lines.pieces_append lf (buffer ++ chunk), List.filter_append]

theorem streamLines_eq (reads : List Bytes) :
    streamLines reads = promptLines reads.flatten := by
  have hnil : lf ∉ ([] : Bytes) := by simp
  simpa [streamLines] using streamLoop_eq hnil reads

def decodeUtf8 (line : Bytes) : Option String := String.fromUTF8? ⟨line.toArray⟩

/-- The loop of `read_line_range`. The stream decodes a line before it hands it over, the
line at `stop` too; `none` is an exception. -/
def readLoop (loads : String → Option Json) (offset stop : Int) :
    Nat → List Bytes → Option (List Json)
  | _, [] => some []
  | idx, line :: lines => do
    let text ← decodeUtf8 line
    if stop ≤ idx then
      return []
    else if offset ≤ idx then
      let item ← loads text
      let items ← readLoop loads offset stop (idx + 1) lines
      return item :: items
    else
      readLoop loads offset stop (idx + 1) lines

/-- `SpacesClient.read_line_range` -/
def readLineRange (loads : String → Option Json) (reads : List Bytes) (offset limit : Int) :
    Option (List Json) :=
  readLoop loads offset (offset + limit) 0 (streamLines reads)

/-- `SpacesClient.stream_lines`, `none` where a line cannot be decoded. -/
def streamTexts (reads : List Bytes) : Option (List String) :=
  (streamLines reads).mapM decodeUtf8

/-- The texts that the loop of `read_line_range` hands to `json.loads`. -/
def selectLoop (offset stop : Int) : Nat → List Bytes → Option (List String)
  | _, [] => some []
  | idx, line :: lines => do
    let text ← decodeUtf8 line
    if stop ≤ idx then
      return []
    else if offset ≤ idx then
      let texts ← selectLoop offset stop (idx + 1) lines
      return text :: texts
    else
      selectLoop offset stop (idx + 1) lines

/-- The lines that `read_line_range` selects. -/
def selectLines (reads : List Bytes) (offset limit : Int) : Option (List String) :=
  selectLoop offset (offset + limit) 0 (streamLines reads)

theorem readLoop_eq (loads : String → Option Json) (offset stop : Int) (idx : Nat)
    (lines : List Bytes) : readLoop loads offset stop idx lines =
      (selectLoop offset stop idx lines).bind fun texts => texts.mapM loads := by
  induction lines generalizing idx with
  | nil => rfl
  | cons line lines ih =>
    simp only [readLoop, selectLoop, Option.bind_eq_bind, Option.bind_assoc]
    refine Option.bind_congr fun text _ => ?_
    split_ifs
    · rfl
    · rw [ih]
      cases selectLoop offset stop (idx + 1) lines with
      | none => cases loads text <;> rfl
      | some texts => simp
    · exact ih _

/-- `read_line_range` parses the lines that it selects. -/
theorem readLineRange_eq (loads : String → Option Json) (reads : List Bytes)
    (offset limit : Int) : readLineRange loads reads offset limit =
      (selectLines reads offset limit).bind fun texts => texts.mapM loads :=
  readLoop_eq loads offset (offset + limit) 0 (streamLines reads)

theorem exists_mapM {α β : Type} {f : α → Option β} {xs : List α}
    (h : ∀ x ∈ xs, ∃ y, f x = some y) : ∃ ys, xs.mapM f = some ys := by
  induction xs with
  | nil => exact ⟨[], rfl⟩
  | cons x xs ih =>
    obtain ⟨⟨y, hy⟩, hxs⟩ := List.forall_mem_cons.mp h
    obtain ⟨ys, hys⟩ := ih hxs
    exact ⟨y :: ys, by simp [hy, hys]⟩

theorem mapM_cons_eq_some {α β : Type} {f : α → Option β} {x : α} {xs : List α} {zs : List β}
    (h : (x :: xs).mapM f = some zs) :
    ∃ y ys, f x = some y ∧ xs.mapM f = some ys ∧ zs = y :: ys := by
  rw [List.mapM_cons] at h
  obtain ⟨y, hy, h⟩ := Option.bind_eq_some_iff.mp h
  obtain ⟨ys, hys, h⟩ := Option.bind_eq_some_iff.mp h
  exact ⟨y, ys, hy, hys, (Option.some.inj h).symm⟩

theorem mapM_take {α β : Type} {f : α → Option β} {xs : List α} {ys : List β}
    (h : xs.mapM f = some ys) (n : Nat) : (xs.take n).mapM f = some (ys.take n) := by
  induction xs generalizing ys n with
  | nil => cases h; simp
  | cons x xs ih =>
    obtain ⟨y, rest, hy, hrest, rfl⟩ := mapM_cons_eq_some h
    cases n with
    | zero => rfl
    | succ n => simp [hy, ih hrest]

/-- What the loop decodes: the lines before `stop`, and the one that ends it. -/
theorem selectLoop_take (offset stop : Int) (idx : Nat) (lines : List Bytes) :
    selectLoop offset stop idx lines =
      ((lines.take ((stop - idx).toNat + 1)).mapM decodeUtf8).map fun texts =>
        (texts.take (stop - idx).toNat).drop (offset - idx).toNat := by
  induction lines generalizing idx with
  | nil => simp [selectLoop]
  | cons line lines ih =>
    simp only [selectLoop, List.take_succ_cons, List.mapM_cons, Option.bind_eq_bind]
    cases decodeUtf8 line with
    | none => rfl
    | some text =>
      simp only [Option.bind_some]
      split_ifs with hstop hoff
      · have : (stop - idx).toNat = 0 := by omega
        simp [this]
      · have hrest : (stop - idx).toNat = (stop - (idx + 1 : Nat)).toNat + 1 := by omega
        have hidx : (offset - idx).toNat = 0 := by omega
        have hnext : (offset - (idx + 1 : Nat)).toNat = 0 := by omega
        rw [ih, hrest, hidx, hnext]
        cases (lines.take ((stop - (idx + 1 : Nat)).toNat + 1)).mapM decodeUtf8 <;> simp
      · have hrest : (stop - idx).toNat = (stop - (idx + 1 : Nat)).toNat + 1 := by omega
        have hidx : (offset - idx).toNat = (offset - (idx + 1 : Nat)).toNat + 1 := by omega
        rw [ih, hrest, hidx]
        cases (lines.take ((stop - (idx + 1 : Nat)).toNat + 1)).mapM decodeUtf8 <;> simp

theorem selectLoop_eq {offset stop : Int} {idx : Nat} {lines : List Bytes} {texts : List String}
    (h : lines.mapM decodeUtf8 = some texts) : selectLoop offset stop idx lines =
      some ((texts.take (stop - idx).toNat).drop (offset - idx).toNat) := by
  rw [selectLoop_take, mapM_take h, Option.map_some, List.take_take,
    Nat.min_eq_left (Nat.le_succ _)]

theorem length_readLoop {loads : String → Option Json} {offset stop : Int} {idx : Nat}
    {lines : List Bytes} {items : List Json}
    (h : readLoop loads offset stop idx lines = some items) :
    (items.length : Int) = max 0 (min stop (idx + lines.length) - max offset idx) := by
  induction lines generalizing idx items with
  | nil =>
    cases h
    simp only [List.length_nil]
    omega
  | cons line lines ih =>
    simp only [readLoop, Option.bind_eq_bind, Option.bind_eq_some_iff] at h
    obtain ⟨text, -, h⟩ := h
    split_ifs at h with hstop hoff
    · cases h
      simp only [List.length_nil, List.length_cons]
      omega
    · obtain ⟨item, -, rest, hrest, h⟩ := by simpa [Option.bind_eq_some_iff] using h
      subst h
      have := ih hrest
      simp only [List.length_cons]
      omega
    · have := ih h
      simp only [List.length_cons]
      omega

/-- A range that lies inside the object is read in full. -/
theorem length_readLineRange {loads : String → Option Json} {reads : List Bytes}
    {offset limit : Int} {items : List Json}
    (h : readLineRange loads reads offset limit = some items)
    (ho : 0 ≤ offset) (hl : 0 ≤ limit)
    (hin : offset + limit ≤ (promptLines reads.flatten).length) : items.length = limit := by
  rw [← streamLines_eq] at hin
  have := length_readLoop h
  omega

/-! ## Writing results -/

/-- `SpacesClient.write_chunk_results`: the body that it puts. -/
def writeChunkResults (rows : List Json) : Bytes :=
  let lines := rows.map fun row => encodeUtf8 row.dumps
  [lf].intercalate lines ++ if lines = [] then [] else [lf]

/-- `SpacesClient.concatenate_chunks`: the body that it puts, from the bodies that it got. -/
def concatenateChunks (parts : List Bytes) : Bytes :=
  (parts.map fun data =>
    if data ≠ [] ∧ data.getLast? ≠ some lf then data ++ [lf] else data).flatten

theorem intercalate_eq_unlines {lines : List Bytes} :
    [lf].intercalate lines ++ (if lines = [] then [] else [lf]) = Lines.unlines lf lines := by
  induction lines with
  | nil => rfl
  | cons l ls ih =>
    cases ls with
    | nil => simp [List.intercalate]
    | cons m ms => simpa [List.intercalate] using ih

theorem writeChunkResults_eq (rows : List Json) :
    writeChunkResults rows = Lines.unlines lf (rows.map fun row => encodeUtf8 row.dumps) :=
  intercalate_eq_unlines

/-- One line a row. -/
theorem cut_writeChunkResults (rows : List Json) :
    Lines.cut lf (writeChunkResults rows) = (rows.map fun row => encodeUtf8 row.dumps, []) := by
  rw [writeChunkResults_eq, Lines.cut_unlines]
  intro line hl
  obtain ⟨row, -, rfl⟩ := List.mem_map.mp hl
  exact lf_notMem_encode (Json.newline_notMem_dumps row)

/-- Concatenating checkpoints is writing their rows one after the other. -/
theorem concatenateChunks_writeChunkResults (segments : List (List Json)) :
    concatenateChunks (segments.map writeChunkResults) =
      writeChunkResults segments.flatten := by
  have terminated (rows : List Json) : writeChunkResults rows = [] ∨
      (writeChunkResults rows).getLast? = some lf := by
    rw [writeChunkResults_eq]
    by_cases h : rows = []
    · exact .inl (by simp [h])
    · exact .inr (Lines.getLast?_unlines lf (by simpa using h))
  have unchanged (rows : List Json) : (if writeChunkResults rows ≠ [] ∧
      (writeChunkResults rows).getLast? ≠ some lf then writeChunkResults rows ++ [lf]
      else writeChunkResults rows) = writeChunkResults rows := by
    rw [if_neg]
    rcases terminated rows with h | h <;> simp [h]
  simp only [concatenateChunks, List.map_map, Function.comp_def, unchanged]
  simp only [writeChunkResults_eq, List.map_flatten, Lines.unlines_flatten, List.map_map,
    Function.comp_def]

end BatchInference
