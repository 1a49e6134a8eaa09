import BatchInference.Core.Ingest

/-!
# Reading a range of lines

The lines of an object are its pieces between LF bytes that `bytes.strip` does not make
empty. `stream_lines` yields them in any way the object is read, and `read_line_range` parses
those of its range and no other.
-/

namespace BatchInference

variable {content : Bytes} {reads : List Bytes}

theorem strip_eq_nil_iff (line : Bytes) : strip line = [] ↔ isBlank line = true := by
  rw [strip, List.rdropWhile_eq_nil_iff, isBlank, List.all_eq_true]
  constructor
  · intro h b hb
    rw [← List.takeWhile_append_dropWhile (p := isSpace) (l := line), List.mem_append] at hb
    exact hb.elim List.mem_takeWhile_imp (h b)
  · intro h b hb
    exact h b ((List.dropWhile_sublist _).subset hb)

/-- The lines of `stream_lines`, in the words of `split` and `strip`. -/
theorem promptLines_eq (content : Bytes) :
    promptLines content = (content.splitOn lf).filter fun line => strip line ≠ [] := by
  rw [promptLines, Lines.pieces_eq_splitOn]
  refine List.filter_congr fun line _ => ?_
  cases h : isBlank line <;> simp [strip_eq_nil_iff, h]

theorem mapM_congr {α β : Type} {f g : α → Option β} {xs : List α}
    (h : ∀ x ∈ xs, f x = g x) : xs.mapM f = xs.mapM g := by
  induction xs with
  | nil => rfl
  | cons x xs ih =>
    obtain ⟨hx, hxs⟩ := List.forall_mem_cons.mp h
    rw [List.mapM_cons, List.mapM_cons, hx, ih hxs]

/-- However the content is read: the stream yields its lines, and a range parses its lines and
no other, with all lines before its end and the next one decoded. -/
theorem reading_independent_of_cuts (h : reads.flatten = content) (loads : String → Option Json)
    (offset limit : Nat) :
    let lines := (content.splitOn lf).filter fun line => strip line ≠ []
    streamTexts reads = lines.mapM decodeUtf8 ∧
    readLineRange loads reads offset limit =
      ((lines.take (offset + limit + 1)).mapM decodeUtf8).bind (fun texts =>
        ((texts.take (offset + limit)).drop offset).mapM loads) ∧
    ∀ texts, lines.mapM decodeUtf8 = some texts →
      readLineRange loads reads offset limit = ((texts.drop offset).take limit).mapM loads ∧
      ∀ loads', (∀ text ∈ (texts.drop offset).take limit, loads text = loads' text) →
        readLineRange loads reads offset limit = readLineRange loads' reads offset limit := by
  intro lines
  have hstream : streamLines reads = lines := by rw [streamLines_eq, h, promptLines_eq]
  have hrange (loads : String → Option Json) : readLineRange loads reads offset limit =
      ((lines.take (offset + limit + 1)).mapM decodeUtf8).bind (fun texts =>
        ((texts.take (offset + limit)).drop offset).mapM loads) := by
    have hstop : ((offset : Int) + limit - (0 : Nat)).toNat = offset + limit := by omega
    have hoffset : ((offset : Int) - (0 : Nat)).toNat = offset := by omega
    rw [readLineRange_eq, selectLines, hstream, selectLoop_take, hstop, hoffset,
      Option.bind_map]
    rfl
  have hdecoded (loads : String → Option Json) {texts : List String}
      (htexts : lines.mapM decodeUtf8 = some texts) :
      readLineRange loads reads offset limit = ((texts.drop offset).take limit).mapM loads := by
    rw [hrange, mapM_take htexts, Option.bind_some, List.take_take,
      Nat.min_eq_left (Nat.le_succ _), List.drop_take, Nat.add_sub_cancel_left]
  refine ⟨by rw [streamTexts, hstream], hrange loads, fun texts htexts =>
    ⟨hdecoded loads htexts, fun loads' hagree => ?_⟩⟩
  rw [hdecoded loads htexts, hdecoded loads' htexts]
  exact mapM_congr hagree

/-- The two bytes of a character in different reads, a line of a blank and a CR, and a tail. -/
def cutReads : List Bytes := [[97, 195], [169, 10, 32], [13, 10, 98]]

theorem reading_independent_of_cuts_cutReads :
    cutReads.flatten = [97, 195, 169, 10, 32, 13, 10, 98] ∧
    streamTexts cutReads = some ["aé", "b"] ∧
    readLineRange (fun text => some (.str text)) cutReads 1 5 =
      (["b"].mapM fun text => some (.str text)) := by
  have hflatten : cutReads.flatten = [97, 195, 169, 10, 32, 13, 10, 98] := by decide
  have hlines : (([97, 195, 169, 10, 32, 13, 10, 98] : Bytes).splitOn lf).filter
      (fun line => strip line ≠ []) = [[97, 195, 169], [98]] := by
    rw [← promptLines_eq]
    decide +kernel
  have htexts : [[97, 195, 169], [98]].mapM decodeUtf8 = some ["aé", "b"] := by decide +kernel
  have hreading := reading_independent_of_cuts hflatten (fun text => some (.str text)) 1 5
  simp only [hlines, htexts] at hreading
  exact ⟨hflatten, hreading.1, (hreading.2.2 _ rfl).1⟩

end BatchInference
