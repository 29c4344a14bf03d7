import ImapSearch.Capability
import ImapSearch.Proofs.Scan.Reads

/-!
# ImapSearch.Proofs.Scan.Atom

**Words that are atoms.** A word is an atom unless it is a number or `NIL`, or begins
with punctuation (`PlainAtom`). It is then read as a whole, as it is written
(`Scan.gives_plainAtom`).

Keywords are compared in upper case. None of what makes a word an atom depends on the
case of its letters, so every spelling of a keyword is an atom (`PlainAtom.respell`), and
the name of a capability is known in every spelling (`Capability.ofText_asciiText`).
-/

namespace ImapSearch

/-- A word that is an atom by itself: neither a number nor `NIL`, and without punctuation in
front. -/
structure PlainAtom extends Word where
  not_opens : ¬ opensWithPunctuation bytes
  not_digits : ¬ bytes.all Ascii.isDigit
  not_nil : upperCase bytes ≠ utf8 "NIL"

/-- A word that begins with a letter is an atom by itself, unless it is `NIL`. -/
def LetterWord.atom (w : LetterWord) (h : upperCase w.bytes ≠ utf8 "NIL") : PlainAtom where
  toWord := w.toWord
  not_opens := w.not_opensWithPunctuation
  not_digits := w.not_all_isDigit
  not_nil := h

/-- The text of an atom. -/
def PlainAtom.text (a : PlainAtom) : String := asciiText a.bytes

/-- An atom is read as it is written. -/
theorem Scan.gives_plainAtom (a : PlainAtom) :
    token.Gives EndsWord a.bytes (some (.atom a.bytes)) := by
  have hword := gives_word a.not_opens
  rw [wordToken?, if_neg a.not_opens, if_neg a.not_digits, if_neg a.not_nil] at hword
  exact hword

theorem Scan.gives_atom (a : PlainAtom) : atom.Gives EndsWord a.bytes (some a.bytes) :=
  (gives_plainAtom a).finish (gives_pure _)

/-! ### Upper case -/

namespace Ascii

theorem isAtomByte_upper (b : UInt8) : isAtomByte (upper b) = isAtomByte b := by
  simp only [upper, isAtomByte]
  grind

theorem isDigit_upper (b : UInt8) : isDigit (upper b) = isDigit b := by
  simp only [upper, isDigit]
  grind

/-- Only a letter is changed. -/
theorem upper_eq_iff {b c : UInt8} (h : ¬ isLetter c) : upper b = c ↔ b = c := by
  simp only [isLetter, upper, Bool.and_eq_true, decide_eq_true_eq] at h ⊢
  split at h <;> split <;> grind

theorem upper_lt_iff {b : UInt8} : upper b < 0x80 ↔ b < 0x80 := by
  simp only [upper]
  grind

end Ascii

theorem all_isAtomByte_upperCase (bs : Bytes) :
    (upperCase bs).all isAtomByte = bs.all isAtomByte := by
  simp [upperCase, List.all_map, Function.comp_def, Ascii.isAtomByte_upper]

theorem all_isDigit_upperCase (bs : Bytes) :
    (upperCase bs).all Ascii.isDigit = bs.all Ascii.isDigit := by
  simp [upperCase, List.all_map, Function.comp_def, Ascii.isDigit_upper]

theorem opensWithPunctuation_upperCase (bs : Bytes) :
    opensWithPunctuation (upperCase bs) = opensWithPunctuation bs := by
  cases bs with
  | nil => rfl
  | cons b bs =>
    simp [opensWithPunctuation, upperCase, Ascii.upper_eq_iff (c := Ascii.openBracket) (by decide),
      Ascii.upper_eq_iff (c := Ascii.plus) (by decide)]

/-- Bytes that are an atom but for the case of their letters are an atom. -/
def PlainAtom.respell (a : PlainAtom) (bs : Bytes) (h : upperCase bs = upperCase a.bytes) :
    PlainAtom where
  bytes := bs
  ne_nil := by
    rintro rfl
    exact a.ne_nil (List.map_eq_nil_iff.mp h.symm)
  isAtom := by
    rw [← List.all_eq_true, ← all_isAtomByte_upperCase, h, all_isAtomByte_upperCase,
      List.all_eq_true]
    exact a.isAtom
  not_opens := by
    rw [← opensWithPunctuation_upperCase, h, opensWithPunctuation_upperCase]
    exact a.not_opens
  not_digits := by
    rw [← all_isDigit_upperCase, h, all_isDigit_upperCase]
    exact a.not_digits
  not_nil := h ▸ a.not_nil

/-- A keyword, which is given in upper case, written in any case. -/
structure Spelling (keyword : Bytes) where
  bytes : Bytes
  isKeyword : upperCase bytes = keyword

/-- An atom in upper case, the form in which keywords are compared. -/
structure UpperAtom extends PlainAtom where
  isUpper : upperCase bytes = bytes

namespace UpperAtom

/-- A keyword in any case is an atom. -/
def spelled (a : UpperAtom) (word : Spelling a.bytes) : PlainAtom :=
  a.respell word.bytes (word.isKeyword.trans a.isUpper.symm)

/-- Whether the bytes are an atom in upper case. -/
def accepts (bs : Bytes) : Bool :=
  !bs.isEmpty && bs.all isAtomByte && !opensWithPunctuation bs && !bs.all Ascii.isDigit &&
    upperCase bs == bs && bs != utf8 "NIL"

/-- The atom in upper case that the bytes are. -/
def ofBytes (bs : Bytes) (h : accepts bs) : UpperAtom :=
  have h : ((((bs ≠ [] ∧ ∀ b ∈ bs, isAtomByte b) ∧ ¬ opensWithPunctuation bs) ∧
      ¬ bs.all Ascii.isDigit) ∧ upperCase bs = bs) ∧ bs ≠ utf8 "NIL" := by
    simpa [accepts] using h
  { bytes := bs
    ne_nil := h.1.1.1.1.1
    isAtom := h.1.1.1.1.2
    not_opens := h.1.1.1.2
    not_digits := h.1.1.2
    not_nil := h.1.2.symm ▸ h.2
    isUpper := h.1.2 }

end UpperAtom

/-! ### The names of capabilities -/

namespace Text

theorem upperChar_ofNat {b : UInt8} (h : b < 0x80) :
    upperChar (Char.ofNat b.toNat) = [Char.ofNat (Ascii.upper b).toNat] := by
  have hall : ∀ n : Fin 128,
      upperChar (Char.ofNat n) = [Char.ofNat (Ascii.upper (UInt8.ofNat n)).toNat] := by
    decide +kernel
  have hn := hall ⟨b.toNat, UInt8.lt_iff_toNat_lt.mp h⟩
  rw [UInt8.ofNat_toNat] at hn
  exact hn

/-- A text of ASCII bytes is a keyword if its bytes are, in upper case. -/
theorem isKeyword_asciiText {bs : Bytes} (h : ∀ b ∈ bs, b < 0x80) (keyword : String) :
    isKeyword (asciiText bs) keyword ↔ upperCase bs = utf8 keyword := by
  have hchars : (asciiText bs).toList.flatMap upperChar = (asciiText (upperCase bs)).toList := by
    simp only [asciiText, String.toList_ofList, upperCase]
    induction bs with
    | nil => rfl
    | cons b bs ih =>
      obtain ⟨hb, hbs⟩ := List.forall_mem_cons.mp h
      rw [List.map_cons, List.flatMap_cons, upperChar_ofNat hb, ih hbs]
      rfl
  have hascii : ∀ b ∈ upperCase bs, b < 0x80 := by
    intro b hb
    obtain ⟨c, hc, rfl⟩ := List.mem_map.mp hb
    exact Ascii.upper_lt_iff.mpr (h c hc)
  rw [isKeyword, hchars, beq_iff_eq, String.toList_inj, ← utf8_inj, utf8_asciiText hascii]

end Text

/-- The capabilities that change how a search is sent. -/
def Capability.known : List Capability :=
  [.rev1, .rev2, .extendedSearch, .literalPlus, .literalMinus]

/-- The name of a capability, in upper case. -/
def Capability.keyword (cap : Capability) : Bytes := upperCase (utf8 cap.name)

namespace Capability

/-- A name is looked up among the known ones. -/
theorem ofText_asciiText {bs : Bytes} (h : ∀ b ∈ bs, b < 0x80) : ofText (asciiText bs) =
    (known.find? fun cap => upperCase bs = cap.keyword).getD (.other (asciiText bs)) := by
  have hrev1 : keyword .rev1 = utf8 "IMAP4REV1" := by decide +kernel
  have hrev2 : keyword .rev2 = utf8 "IMAP4REV2" := by decide +kernel
  have hextended : keyword .extendedSearch = utf8 "ESEARCH" := by decide +kernel
  have hplus : keyword .literalPlus = utf8 "LITERAL+" := by decide +kernel
  have hminus : keyword .literalMinus = utf8 "LITERAL-" := by decide +kernel
  simp only [ofText, Text.isKeyword_asciiText h, known, List.find?_cons, hrev1, hrev2, hextended,
    hplus, hminus]
  grind

/-- A known name is known in any case. -/
theorem ofText_known {cap : Capability} (h : cap ∈ known) (name : Spelling cap.keyword) :
    ofText (asciiText name.bytes) = cap := by
  have hbytes : ∀ cap ∈ known, ∀ b ∈ cap.keyword, b < 0x80 := by decide +kernel
  have hfind : ∀ cap ∈ known, known.find? (fun c => cap.keyword = c.keyword) = some cap := by
    decide +kernel
  have hascii : ∀ b ∈ name.bytes, b < 0x80 := by
    intro b hb
    rw [← Ascii.upper_lt_iff]
    refine hbytes cap h _ ?_
    rw [← name.isKeyword]
    exact List.mem_map_of_mem hb
  rw [ofText_asciiText hascii, name.isKeyword, hfind cap h]
  rfl

/-- Any other name is kept as it is. -/
theorem ofText_other {bs : Bytes} (h : ∀ b ∈ bs, b < 0x80)
    (hother : ∀ cap ∈ known, upperCase bs ≠ cap.keyword) :
    ofText (asciiText bs) = .other (asciiText bs) := by
  have hnone : (known.find? fun cap => upperCase bs = cap.keyword) = none := by
    rw [List.find?_eq_none]
    intro cap hcap
    simpa using hother cap hcap
  rw [ofText_asciiText h, hnone]
  rfl

end Capability

end ImapSearch
