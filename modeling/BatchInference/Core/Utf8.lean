import BatchInference.Core.Uploads

/-!
# Lines of a UTF-8 text

Line ends and the blanks that `bytes.strip` removes are ASCII bytes, and no other character
contains one. So the stripped lines of a text in UTF-8 are in UTF-8.
-/

namespace BatchInference

/-- An ASCII byte is the whole encoding of its character. -/
theorem encode_of_mem {b : UInt8} {c : Char} (hb : b.toNat < 128)
    (h : b ∈ String.utf8EncodeChar c) : String.utf8EncodeChar c = [b] := by
  have hc : c.val.toNat ≤ 127 := by
    have : c.toNat = b.toNat := toNat_of_mem_encode hb h
    change c.toNat ≤ 127
    omega
  simp only [String.utf8EncodeChar, hc, if_true, List.mem_singleton] at h ⊢
  rw [h]

theorem encode_ne_nil (c : Char) : String.utf8EncodeChar c ≠ [] := by
  rw [String.utf8EncodeChar]
  split_ifs <;> simp

@[simp] theorem encodeUtf8_nil : encodeUtf8 [] = [] := rfl

@[simp] theorem encodeUtf8_cons (c : Char) (cs : List Char) :
    encodeUtf8 (c :: cs) = String.utf8EncodeChar c ++ encodeUtf8 cs := by
  simp [encodeUtf8]

@[simp] theorem encodeUtf8_append (cs cs' : List Char) :
    encodeUtf8 (cs ++ cs') = encodeUtf8 cs ++ encodeUtf8 cs' := by
  simp [encodeUtf8]

theorem toNat_lt_of_isSpace {b : UInt8} (h : isSpace b = true) : b.toNat < 128 := by
  simp only [isSpace, Bool.or_eq_true, beq_iff_eq, Bool.and_eq_true, decide_eq_true_eq] at h
  rcases h with rfl | ⟨-, h⟩
  · decide
  · exact lt_of_le_of_lt (UInt8.le_iff_toNat_le.mp h) (by decide)

theorem dropWhile_encode (cs : List Char) :
    ∃ cs' ⊆ cs, (encodeUtf8 cs).dropWhile isSpace = encodeUtf8 cs' := by
  induction cs with
  | nil => exact ⟨[], List.nil_subset _, rfl⟩
  | cons c cs ih =>
    obtain ⟨b, bs, hbs⟩ := List.exists_cons_of_ne_nil (encode_ne_nil c)
    cases hspace : isSpace b with
    | true =>
      have hc := encode_of_mem (toNat_lt_of_isSpace hspace) (hbs ▸ List.mem_cons_self)
      obtain ⟨cs', hsub, hcs⟩ := ih
      exact ⟨cs', List.subset_cons_of_subset c hsub, by simpa [hc, hspace] using hcs⟩
    | false => exact ⟨c :: cs, List.Subset.refl _, by simp [hbs, hspace]⟩

theorem rdropWhile_encode (cs : List Char) :
    ∃ cs' ⊆ cs, (encodeUtf8 cs).rdropWhile isSpace = encodeUtf8 cs' := by
  induction cs using List.reverseRecOn with
  | nil => exact ⟨[], List.nil_subset _, rfl⟩
  | append_singleton cs c ih =>
    obtain ⟨bs, b, hbs⟩ := (List.eq_nil_or_concat' _).resolve_left (encode_ne_nil c)
    cases hspace : isSpace b with
    | true =>
      have hc : String.utf8EncodeChar c = [b] :=
        encode_of_mem (toNat_lt_of_isSpace hspace) (by simp [hbs])
      obtain ⟨cs', hsub, hcs⟩ := ih
      exact ⟨cs', List.subset_append_of_subset_left _ hsub, by simpa [hc, hspace] using hcs⟩
    | false =>
      refine ⟨cs ++ [c], List.Subset.refl _, ?_⟩
      simp [hbs, ← List.append_assoc, hspace]

theorem strip_encode (cs : List Char) : ∃ cs' ⊆ cs, strip (encodeUtf8 cs) = encodeUtf8 cs' := by
  obtain ⟨cs', hsub, h⟩ := dropWhile_encode cs
  obtain ⟨cs'', hsub', h'⟩ := rdropWhile_encode cs'
  exact ⟨cs'', List.Subset.trans hsub' hsub, by rw [strip, h, h']⟩

/-- A stretch without line ends stays together. -/
theorem splitLines_stretch {bs : Bytes} (hlf : lf ∉ bs) (hcr : 13 ∉ bs) (hne : bs ≠ [])
    (rest : Bytes) : splitLines (bs ++ rest) = match splitLines rest with
      | [] => [bs]
      | line :: lines => (bs ++ line) :: lines := by
  induction bs with
  | nil => exact absurd rfl hne
  | cons b bs ih =>
    rw [List.mem_cons, not_or] at hlf hcr
    rw [List.cons_append, splitLines_cons (Ne.symm hlf.1) (Ne.symm hcr.1)]
    cases bs with
    | nil => cases h : splitLines rest <;> simp [h]
    | cons b' bs =>
      rw [ih hlf.2 hcr.2 (List.cons_ne_nil b' bs)]
      cases splitLines rest <;> rfl

/-- Every line of a text in UTF-8 is in UTF-8, with characters of the text. -/
theorem splitLines_encode (cs : List Char) :
    ∀ line ∈ splitLines (encodeUtf8 cs), ∃ cs' ⊆ cs, line = encodeUtf8 cs' := by
  induction cs with
  | nil => simp
  | cons c cs ih =>
    have later : ∀ line ∈ splitLines (encodeUtf8 cs), ∃ cs' ⊆ c :: cs, line = encodeUtf8 cs' :=
      fun line hline => (ih line hline).imp fun cs' h =>
        ⟨List.subset_cons_of_subset c h.1, h.2⟩
    have empty : ∃ cs' ⊆ c :: cs, ([] : Bytes) = encodeUtf8 cs' := ⟨[], List.nil_subset _, rfl⟩
    rw [encodeUtf8_cons]
    by_cases hlf : lf ∈ String.utf8EncodeChar c
    · rw [encode_of_mem (by decide) hlf, List.singleton_append, splitLines_lf,
        List.forall_mem_cons]
      exact ⟨empty, later⟩
    by_cases hcr : 13 ∈ String.utf8EncodeChar c
    · rw [encode_of_mem (by decide) hcr, List.singleton_append]
      cases hrest : encodeUtf8 cs with
      | nil => exact List.forall_mem_singleton.mpr empty
      | cons b rest =>
        rw [hrest] at later
        by_cases hb : b = lf
        · subst hb
          rw [splitLines_lf] at later
          rwa [splitLines_crlf]
        · rw [splitLines_cr hb, List.forall_mem_cons]
          exact ⟨empty, later⟩
    · rw [splitLines_stretch hlf hcr (encode_ne_nil c)]
      cases hlines : splitLines (encodeUtf8 cs) with
      | nil => simpa using ⟨[c], by simp, by simp⟩
      | cons line lines =>
        rw [hlines] at ih later
        obtain ⟨cs', hsub, rfl⟩ := ih line List.mem_cons_self
        rw [List.forall_mem_cons]
        exact ⟨⟨c :: cs', List.cons_subset_cons c hsub, by simp⟩,
          (List.forall_mem_cons.mp later).2⟩

theorem eq_encode_of_decode {data : Bytes} {text : String} (h : decodeUtf8 data = some text) :
    data = encodeUtf8 text.toList := by
  rw [decodeUtf8, String.fromUTF8?] at h
  split at h
  · rename_i hvalid
    obtain rfl := Option.some.inj h
    have hbytes := bytes_encodeUtf8 (String.fromUTF8 ⟨data.toArray⟩ hvalid).toList
    rw [String.ofList_toList] at hbytes
    exact (Array.toList_inj.mpr (ByteArray.ext_iff.mp hbytes)).symm
  · cases h

/-- The texts of the lines that are not blank. -/
def lineTexts (data : Bytes) : Option (List String) :=
  (((splitLines data).map strip).filter (· ≠ [])).mapM decodeUtf8

/-- The lines of a text in UTF-8 are texts, with characters of that text. -/
theorem exists_lineTexts {data : Bytes} {text : String} (h : decodeUtf8 data = some text) :
    ∃ texts, lineTexts data = some texts ∧ ∀ line ∈ texts, line.toList ⊆ text.toList := by
  have hlines : ∀ line ∈ ((splitLines data).map strip).filter (· ≠ []),
      ∃ cs ⊆ text.toList, line = encodeUtf8 cs := by
    intro line hline
    obtain ⟨raw, hraw, rfl⟩ := List.mem_map.mp (List.mem_of_mem_filter hline)
    rw [eq_encode_of_decode h] at hraw
    obtain ⟨cs, hsub, rfl⟩ := splitLines_encode _ raw hraw
    obtain ⟨cs', hsub', hstrip⟩ := strip_encode cs
    exact ⟨cs', List.Subset.trans hsub' hsub, hstrip⟩
  obtain ⟨texts, htexts⟩ : ∃ texts, lineTexts data = some texts := by
    refine exists_mapM fun line hline => ?_
    obtain ⟨cs, -, rfl⟩ := hlines line hline
    exact ⟨_, decodeUtf8_encodeUtf8 cs⟩
  refine ⟨texts, htexts, fun line hline => ?_⟩
  obtain ⟨i, hi, rfl⟩ := List.getElem_of_mem hline
  obtain ⟨hlength, hget⟩ := List.forall₂_iff_get.mp (forall₂_of_mapM htexts)
  obtain ⟨cs, hsub, hcs⟩ := hlines _ (List.getElem_mem (hlength.symm ▸ hi))
  have hdecode := hget i (hlength.symm ▸ hi) hi
  rw [List.get_eq_getElem, List.get_eq_getElem, hcs, decodeUtf8_encodeUtf8] at hdecode
  rw [← Option.some.inj hdecode, String.toList_ofList]
  exact hsub

end BatchInference
