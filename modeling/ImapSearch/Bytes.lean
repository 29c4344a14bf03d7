/-!
# ImapSearch.Bytes

**The bytes of the wire, and the texts written in them.** A connection carries
bytes; a criterion, a tag or a status text is a `String`. This module holds the
passages between the two: `utf8` writes a text, `ofUtf8?` reads one back and
refuses what is not UTF-8, and `asciiText` reads a run of ASCII bytes, where
every byte is one character. It also names the bytes that have a meaning in the
protocol and finds the line terminator CRLF.
-/

namespace ImapSearch

/-- A run of bytes as it stands on the wire. -/
abbrev Bytes := List UInt8

/-! ### Named bytes -/

namespace Ascii

/-- The zero byte, which no quoted string may hold. -/
abbrev nul : UInt8 := 0x00
/-- Line feed, the second byte of the line terminator. -/
abbrev lf : UInt8 := 0x0A
/-- Carriage return, the first byte of the line terminator. -/
abbrev cr : UInt8 := 0x0D
/-- The space, which separates words. -/
abbrev space : UInt8 := 0x20
/-- The double quote, around a quoted string. -/
abbrev quote : UInt8 := 0x22
/-- The percent sign, a wildcard and so no part of an atom. -/
abbrev percent : UInt8 := 0x25
/-- The opening parenthesis of a list. -/
abbrev openParen : UInt8 := 0x28
/-- The closing parenthesis of a list. -/
abbrev closeParen : UInt8 := 0x29
/-- The asterisk, which opens an untagged response and stands for the last message. -/
abbrev star : UInt8 := 0x2A
/-- The plus sign, which opens a continuation and marks a non-synchronizing literal. -/
abbrev plus : UInt8 := 0x2B
/-- The comma between the ranges of a sequence set. -/
abbrev comma : UInt8 := 0x2C
/-- The minus sign. -/
abbrev minus : UInt8 := 0x2D
/-- The digit zero. -/
abbrev zero : UInt8 := 0x30
/-- The digit nine. -/
abbrev nine : UInt8 := 0x39
/-- The colon between the bounds of a range. -/
abbrev colon : UInt8 := 0x3A
/-- The opening bracket of a response code. -/
abbrev openBracket : UInt8 := 0x5B
/-- The backslash, which escapes inside a quoted string. -/
abbrev backslash : UInt8 := 0x5C
/-- The closing bracket of a response code. -/
abbrev closeBracket : UInt8 := 0x5D
/-- The opening brace of a literal header. -/
abbrev openBrace : UInt8 := 0x7B
/-- The closing brace of a literal header. -/
abbrev closeBrace : UInt8 := 0x7D
/-- The last ASCII byte, a control character. -/
abbrev del : UInt8 := 0x7F

/-- A decimal digit. -/
def isDigit (b : UInt8) : Bool := zero ≤ b && b ≤ nine

/-- The upper-case form of an ASCII letter; every other byte is itself. -/
def upper (b : UInt8) : UInt8 := if 0x61 ≤ b && b ≤ 0x7A then b - 0x20 else b

theorem upper_upper (b : UInt8) : upper (upper b) = upper b := by
  unfold upper
  grind

end Ascii

/-- The bytes with their ASCII letters in upper case, the form in which keywords are compared. -/
def upperCase (bs : Bytes) : Bytes := bs.map Ascii.upper

theorem upperCase_upperCase (bs : Bytes) : upperCase (upperCase bs) = upperCase bs := by
  simp [upperCase, Ascii.upper_upper]

/-! ### Texts and bytes -/

/-- The UTF-8 bytes of a text. -/
def utf8 (s : String) : Bytes := s.toByteArray.data.toList

/-- The text whose UTF-8 bytes these are, if they are the UTF-8 bytes of a text. -/
def ofUtf8? (bs : Bytes) : Option String := String.fromUTF8? ⟨bs.toArray⟩

/-- The text of a run of ASCII bytes, one character for each byte. -/
def asciiText (bs : Bytes) : String := String.ofList (bs.map fun b => Char.ofNat b.toNat)

@[simp] theorem utf8_empty : utf8 "" = [] := rfl

@[simp] theorem utf8_append (s t : String) : utf8 (s ++ t) = utf8 s ++ utf8 t := by
  simp [utf8]

/-- A text is written character by character. -/
theorem utf8_ofList (cs : List Char) :
    utf8 (String.ofList cs) = cs.flatMap String.utf8EncodeChar := by
  simp [utf8, List.utf8Encode]

theorem utf8EncodeChar_ofNat {b : UInt8} (h : b < 0x80) :
    String.utf8EncodeChar (Char.ofNat b.toNat) = [b] := by
  have hlt : b.toNat < 128 := UInt8.lt_iff_toNat_lt.mp h
  have hval : (Char.ofNat b.toNat).val.toNat = b.toNat := by
    rw [Char.ofNat, dif_pos (.inl (by omega))]
    rfl
  have hsize : (Char.ofNat b.toNat).utf8Size = 1 := by
    rw [Char.utf8Size_eq_one_iff, UInt32.le_iff_toNat_le, hval]
    show b.toNat ≤ 127
    omega
  have hbyte : (Char.ofNat b.toNat).val.toUInt8 = b := by
    apply UInt8.toNat_inj.mp
    rw [UInt32.toNat_toUInt8, hval]
    omega
  rw [String.utf8EncodeChar_eq_singleton hsize, hbyte]

/-- A character is one ASCII byte, or bytes none of which is ASCII. -/
theorem utf8EncodeChar_cases (c : Char) :
    (c.toNat < 0x80 ∧ String.utf8EncodeChar c = [c.toUInt8]) ∨
      (0x80 ≤ c.toNat ∧ ∀ b ∈ String.utf8EncodeChar c, 0x80 ≤ b) := by
  by_cases h : c.toNat < 0x80
  · refine .inl ⟨h, String.utf8EncodeChar_eq_singleton ?_⟩
    rw [Char.utf8Size_eq_one_iff, UInt32.le_iff_toNat_le]
    exact Nat.le_of_lt_succ h
  · refine .inr ⟨Nat.not_lt.mp h, fun b hb => ?_⟩
    have hlong : ¬ c.val.toNat ≤ 0x7f := fun hle => h (Nat.lt_succ_of_le hle)
    have hbyte : ∀ n : Nat, 0x80 ≤ n % 256 → (0x80 : UInt8) ≤ UInt8.ofNat n := by
      intro n hn
      rw [UInt8.le_iff_toNat_le, UInt8.toNat_ofNat']
      exact hn
    rw [String.utf8EncodeChar, if_neg hlong] at hb
    -- Every byte of a longer character is a sum with `0x80` or more.
    split at hb
    · simp only [List.mem_cons, List.not_mem_nil, or_false] at hb
      rcases hb with rfl | rfl <;> exact hbyte _ (by omega)
    · split at hb <;> simp only [List.mem_cons, List.not_mem_nil, or_false] at hb
      · rcases hb with rfl | rfl | rfl <;> exact hbyte _ (by omega)
      · rcases hb with rfl | rfl | rfl | rfl <;> exact hbyte _ (by omega)

theorem utf8_eq_flatMap (s : String) : utf8 s = s.toList.flatMap String.utf8EncodeChar := by
  rw [← utf8_ofList, String.ofList_toList]

/-- A text of ASCII bytes is written as those bytes. -/
theorem utf8_asciiText {bs : Bytes} (h : ∀ b ∈ bs, b < 0x80) : utf8 (asciiText bs) = bs := by
  rw [asciiText, utf8_ofList]
  induction bs with
  | nil => rfl
  | cons b bs ih =>
    obtain ⟨hb, hbs⟩ := List.forall_mem_cons.mp h
    rw [List.map_cons, List.flatMap_cons, ih hbs, utf8EncodeChar_ofNat hb]
    rfl

/-- Reading undoes writing. -/
@[simp] theorem ofUtf8?_utf8 (s : String) : ofUtf8? (utf8 s) = some s := by
  have h : (⟨(utf8 s).toArray⟩ : ByteArray) = s.toByteArray := by simp [utf8]
  rw [ofUtf8?, h, String.fromUTF8?, dif_pos s.isValidUTF8]
  rfl

theorem utf8_inj {s t : String} : utf8 s = utf8 t ↔ s = t := by
  refine ⟨fun h => ?_, congrArg utf8⟩
  have hread := congrArg ofUtf8? h
  rw [ofUtf8?_utf8, ofUtf8?_utf8] at hread
  exact Option.some.inj hread

/-- Only the bytes of a text are read as that text. -/
theorem utf8_of_ofUtf8? {bs : Bytes} {s : String} (h : ofUtf8? bs = some s) : utf8 s = bs := by
  rw [ofUtf8?, String.fromUTF8?] at h
  split at h
  · cases h; simp [utf8, String.fromUTF8]
  · cases h

/-! ### The line terminator -/

/-- The line terminator. -/
def crlf : Bytes := [Ascii.cr, Ascii.lf]

/-- Splits at the first CRLF, which belongs to neither part. -/
def splitCrlf : Bytes → Option (Bytes × Bytes)
  | [] => none
  | b :: rest =>
    if b = Ascii.cr ∧ rest.head? = some Ascii.lf then some ([], rest.tail)
    else (splitCrlf rest).map fun (line, after) => (b :: line, after)

/-- Nothing is lost at a split. -/
theorem eq_of_splitCrlf {bs line after : Bytes} (h : splitCrlf bs = some (line, after)) :
    bs = line ++ crlf ++ after := by
  induction bs generalizing line with
  | nil => simp [splitCrlf] at h
  | cons b rest ih =>
    rw [splitCrlf] at h
    split at h
    next hb =>
      obtain ⟨rfl, hl⟩ := hb
      simp only [Option.some.injEq, Prod.mk.injEq] at h
      obtain ⟨rfl, rfl⟩ := h
      cases rest with
      | nil => simp at hl
      | cons c rest => simp at hl; simp [crlf, hl]
    next =>
      simp only [Option.map_eq_some_iff, Prod.exists, Prod.mk.injEq] at h
      obtain ⟨l, a, hs, rfl, rfl⟩ := h
      simp [ih hs]

end ImapSearch
