import ImapSearch.Proofs.SequenceSet.Union

/-!
# ImapSearch.Proofs.SequenceSet.Grammar

**The texts of sets.** `IsSetText` is the grammar of sequence sets, said of texts: parts
with commas between them, each of them one bound or two with a colon between them, where a
bound is `*` or digits, leading zeros included, that write a number which a message can
have. Exactly these texts are read, and any other is refused as a whole
(`SequenceSet.exists_parse_iff`).

The parser works on the bytes of a text. The bytes of every part are ASCII, so a part is a
text if its bytes are read, and the other way round (`IsPartText.exists_writesRange`,
`WritesRange.exists_isPartText`).
-/

namespace ImapSearch

/-! ### The grammar -/

/-- A bound of a range. -/
inductive IsBoundText : String → Prop
  /-- The largest number in use. -/
  | star : IsBoundText "*"
  /-- A number that a message can have, in ASCII digits. -/
  | digits {text : String} (hne : text ≠ "") (hdigits : ∀ c ∈ text.toList, c.isDigit)
      (hpos : 1 ≤ Nat.ofDigitChars 10 text.toList 0)
      (hlt : Nat.ofDigitChars 10 text.toList 0 < 2 ^ 32) : IsBoundText text

/-- A part of a set. -/
inductive IsPartText : String → Prop
  /-- One bound. -/
  | bound {text : String} (h : IsBoundText text) : IsPartText text
  /-- Two bounds, in either order. -/
  | bounds {first last : String} (hfirst : IsBoundText first) (hlast : IsBoundText last) :
      IsPartText (first ++ ":" ++ last)

/-- A set: one part at least, and commas between the parts. -/
def IsSetText (text : String) : Prop :=
  ∃ parts : List String, parts ≠ [] ∧ (∀ part ∈ parts, IsPartText part) ∧
    text = ",".intercalate parts

/-! ### Digits -/

/-- Digits are written as one byte each. -/
theorem utf8_of_isDigit {text : String} (h : ∀ c ∈ text.toList, c.isDigit) :
    utf8 text = text.toList.map Char.toUInt8 := by
  rw [utf8_eq_flatMap]
  generalize text.toList = cs at h
  induction cs with
  | nil => rfl
  | cons c cs ih =>
    rw [List.forall_mem_cons] at h
    have hascii : c.toNat < 0x80 :=
      Nat.lt_of_le_of_lt (Decimal.toNat_toUInt8_of_isDigit h.1).2.2 (by decide)
    rcases utf8EncodeChar_cases c with ⟨-, hbyte⟩ | ⟨hlarge, -⟩
    · rw [List.flatMap_cons, hbyte, ih h.2]
      rfl
    · omega

/-- The bytes of digits are digits, and write the same number. -/
theorem decode?_utf8 {text : String} (hne : text ≠ "") (h : ∀ c ∈ text.toList, c.isDigit) :
    Decimal.decode? (utf8 text) = some (Nat.ofDigitChars 10 text.toList 0) := by
  have hbytes : utf8 text ≠ [] := by
    rw [← utf8_empty]
    exact fun heq => hne (utf8_inj.mp heq)
  have hdigits : (utf8 text).all Ascii.isDigit := by
    rw [utf8_of_isDigit h, List.all_eq_true]
    intro b hb
    obtain ⟨c, hc, rfl⟩ := List.mem_map.mp hb
    exact Decimal.isDigit_toUInt8 (h c hc)
  rw [Decimal.decode?, if_pos ⟨hbytes, hdigits⟩, Decimal.value, utf8_of_isDigit h,
    Decimal.foldl_withDigit_map h]

/-- Digits, as bytes, are digits as characters. -/
theorem isDigit_of_mem_asciiText {bs : Bytes} (h : ∀ b ∈ bs, Ascii.isDigit b) {c : Char}
    (hc : c ∈ (asciiText bs).toList) : c.isDigit := by
  rw [asciiText, String.toList_ofList] at hc
  obtain ⟨b, hb, rfl⟩ := List.mem_map.mp hc
  obtain ⟨hl, hu⟩ := Decimal.toNat_of_isDigit (h b hb)
  have hval : (Char.ofNat b.toNat).toNat = b.toNat := by
    rw [Char.ofNat, dif_pos (.inl (by omega))]
    rfl
  rw [Char.isDigit_iff_toNat, hval]
  exact ⟨hl, hu⟩

/-! ### Parts as texts and as bytes -/

theorem IsBoundText.exists_writesBound {text : String} (h : IsBoundText text) :
    ∃ n, WritesBound (utf8 text) n := by
  cases h with
  | star => exact ⟨maxNumber, .star⟩
  | digits hne hdigits hpos hlt =>
    exact ⟨_, .digits (decode?_utf8 hne hdigits) (isNumber_iff.mpr ⟨hpos, Nat.le_of_lt_succ hlt⟩)⟩

theorem WritesBound.exists_isBoundText {bs : Bytes} {n : Nat} (h : WritesBound bs n) :
    ∃ text, IsBoundText text ∧ utf8 text = bs := by
  cases h with
  | star => exact ⟨"*", .star, rfl⟩
  | digits h hn =>
    obtain ⟨⟨hbs, hall⟩, -⟩ := Option.ite_none_right_eq_some.mp h
    have hdigits : ∀ b ∈ bs, Ascii.isDigit b := List.all_eq_true.mp hall
    have hbytes : utf8 (asciiText bs) = bs :=
      utf8_asciiText fun b hb => Decimal.lt_of_isDigit (hdigits b hb)
    have hne : asciiText bs ≠ "" := by
      intro hempty
      rw [hempty, utf8_empty] at hbytes
      exact hbs hbytes.symm
    have hchars : ∀ c ∈ (asciiText bs).toList, c.isDigit :=
      fun c hc => isDigit_of_mem_asciiText hdigits hc
    have hvalue : Nat.ofDigitChars 10 (asciiText bs).toList 0 = n := by
      have hread := decode?_utf8 hne hchars
      rw [hbytes, h] at hread
      exact (Option.some.inj hread).symm
    obtain ⟨hpos, hle⟩ := isNumber_iff.mp hn
    refine ⟨asciiText bs, .digits hne hchars ?_ ?_, hbytes⟩
    · rw [hvalue]
      exact hpos
    · rw [hvalue]
      exact Nat.lt_succ_of_le hle

/-- The bytes of a part write a range. -/
theorem IsPartText.exists_writesRange {text : String} (h : IsPartText text) :
    ∃ m n, WritesRange (utf8 text) m n := by
  cases h with
  | bound h =>
    obtain ⟨n, hn⟩ := h.exists_writesBound
    exact ⟨n, n, .bound hn⟩
  | bounds hfirst hlast =>
    obtain ⟨m, hm⟩ := hfirst.exists_writesBound
    obtain ⟨n, hn⟩ := hlast.exists_writesBound
    refine ⟨m, n, ?_⟩
    rw [utf8_append, utf8_append, List.append_assoc]
    exact .bounds hm hn

/-- Bytes that write a range are those of a part. -/
theorem WritesRange.exists_isPartText {bs : Bytes} {m n : Nat} (h : WritesRange bs m n) :
    ∃ text, IsPartText text ∧ utf8 text = bs := by
  cases h with
  | bound h =>
    obtain ⟨text, htext, hbytes⟩ := h.exists_isBoundText
    exact ⟨text, .bound htext, hbytes⟩
  | bounds hm hn =>
    obtain ⟨first, hfirst, rfl⟩ := hm.exists_isBoundText
    obtain ⟨last, hlast, rfl⟩ := hn.exists_isBoundText
    refine ⟨first ++ ":" ++ last, .bounds hfirst hlast, ?_⟩
    rw [utf8_append, utf8_append, List.append_assoc]
    rfl

theorem WritesBound.comma_notMem {bs : Bytes} {n : Nat} (h : WritesBound bs n) :
    Ascii.comma ∉ bs := by
  intro hcomma
  rcases h.mem hcomma with hdigit | hstar
  · exact absurd hdigit (by decide)
  · exact absurd hstar (by decide)

/-- No part holds a comma. -/
theorem WritesRange.comma_notMem {bs : Bytes} {m n : Nat} (h : WritesRange bs m n) :
    Ascii.comma ∉ bs := by
  cases h with
  | bound h => exact h.comma_notMem
  | bounds hm hn =>
    rw [List.mem_append, List.mem_cons]
    intro hcomma
    rcases hcomma with hcomma | hcomma | hcomma
    · exact hm.comma_notMem hcomma
    · exact absurd hcomma (by decide)
    · exact hn.comma_notMem hcomma

/-! ### Sets -/

/-- Parts with commas between them are written part by part. -/
theorem utf8_intercalate_comma (parts : List String) :
    utf8 (",".intercalate parts) = [Ascii.comma].intercalate (parts.map utf8) := by
  induction parts with
  | nil => rfl
  | cons part parts ih =>
    cases parts with
    | nil => rw [String.intercalate_singleton, List.map_singleton, List.intercalate_singleton]
    | cons next parts =>
      rw [String.intercalate_cons_cons, utf8_append, utf8_append, ih, List.map_cons, List.map_cons,
        List.map_cons, List.intercalate_cons_cons]
      rfl

/-- Bytes that write ranges are those of parts. -/
theorem exists_partTexts {parts : List Bytes} (h : ∀ part ∈ parts, ∃ m n, WritesRange part m n) :
    ∃ texts : List String, (∀ text ∈ texts, IsPartText text) ∧ texts.map utf8 = parts := by
  induction parts with
  | nil => exact ⟨[], by simp, rfl⟩
  | cons part parts ih =>
    obtain ⟨⟨m, n, hpart⟩, hparts⟩ := List.forall_mem_cons.mp h
    obtain ⟨text, htext, rfl⟩ := hpart.exists_isPartText
    obtain ⟨texts, htexts, rfl⟩ := ih hparts
    exact ⟨text :: texts, List.forall_mem_cons.mpr ⟨htext, htexts⟩, rfl⟩

namespace SequenceSet

/-- A text is that of a set if what stands between its commas writes ranges, and only then. -/
theorem isSetText_iff {text : String} :
    IsSetText text ↔ ∀ part ∈ textParts text, ∃ m n, WritesRange part m n := by
  constructor
  · intro h
    obtain ⟨parts, hne, hparts, rfl⟩ := h
    have hwrites : ∀ part ∈ parts.map utf8, ∃ m n, WritesRange part m n := by
      intro part hpart
      obtain ⟨t, ht, rfl⟩ := List.mem_map.mp hpart
      exact (hparts t ht).exists_writesRange
    have hsplit : textParts (",".intercalate parts) = parts.map utf8 := by
      rw [textParts, utf8_intercalate_comma]
      refine List.splitOn_intercalate _ ?_ (by simpa using hne)
      intro part hpart
      obtain ⟨m, n, hpart⟩ := hwrites part hpart
      exact hpart.comma_notMem
    rw [hsplit]
    exact hwrites
  · intro h
    obtain ⟨parts, hparts, hbytes⟩ := exists_partTexts h
    refine ⟨parts, ?_, hparts, ?_⟩
    · intro hnil
      rw [hnil] at hbytes
      exact List.splitOn_ne_nil _ _ hbytes.symm
    · rw [← utf8_inj, utf8_intercalate_comma, hbytes, textParts, List.intercalate_splitOn]

/-- Parts that write ranges are read as ranges. -/
theorem exists_mapM_decode? {parts : List Bytes}
    (h : ∀ part ∈ parts, ∃ m n, WritesRange part m n) :
    ∃ rs, parts.mapM SeqRange.decode? = some rs := by
  induction parts with
  | nil => exact ⟨[], rfl⟩
  | cons part parts ih =>
    obtain ⟨⟨m, n, hpart⟩, hparts⟩ := List.forall_mem_cons.mp h
    obtain ⟨r, hr, -⟩ := hpart.exists_decode?
    obtain ⟨rs, hrs⟩ := ih hparts
    refine ⟨r :: rs, ?_⟩
    rw [mapM_eq_some_iff] at hrs ⊢
    exact .cons hr hrs

/-- A text is read as a set if it is that of a set, and only then: parts with commas between them,
one at least, each of them a bound or two bounds with a colon between them, and a bound is `*` or
digits that write a number which a message can have. Any other text is refused, and the error
carries it as a whole. -/
theorem exists_parse_iff (text : String) :
    ((∃ set, parse text = .ok set) ↔ IsSetText text) ∧
      (parse text = .error (.invalidSequenceSet text) ↔ ¬ IsSetText text) := by
  have hread : (∃ set, parse text = .ok set) ↔ IsSetText text := by
    rw [isSetText_iff]
    constructor
    · intro h
      obtain ⟨set, hset⟩ := h
      exact exists_writesRange_of_parse hset
    · intro h
      obtain ⟨rs, hrs⟩ := exists_mapM_decode? h
      refine ⟨ofRanges rs, ?_⟩
      rw [textParts] at hrs
      rw [parse, decode?, hrs]
      rfl
  refine ⟨hread, ?_⟩
  rw [← hread, parse]
  cases decode? (utf8 text) with
  | none => simp
  | some set => simp

end SequenceSet

end ImapSearch
