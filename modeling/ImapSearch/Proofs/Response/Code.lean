import ImapSearch.Proofs.Response.RoundTrip
import ImapSearch.Response.Code
import ImapSearch.Text.Lossy

/-!
# ImapSearch.Proofs.Response.Code

**Capabilities in a response code.** A response code is looked for in the text of a
response, after that was read from bytes that may not be UTF-8. The ASCII bytes in front
of such bytes are the same characters whatever follows them (`Text.toList_lossy_append`),
so a code at the beginning is found as it was written.

A code that consists of the keyword and of words with spaces between them announces
these words (`announcedCapabilities?_code`): none of them holds a blank or a bracket that
could end it early.
-/

namespace ImapSearch

/-! ### Characters of ASCII bytes -/

/-- The character that an ASCII byte is. -/
def Ascii.char (b : UInt8) : Char := Char.ofNat b.toNat

theorem toList_asciiText (bs : Bytes) : (asciiText bs).toList = bs.map Ascii.char :=
  String.toList_ofList

theorem forall_ascii {P : UInt8 → Prop} (h : ∀ n : Fin 128, P (UInt8.ofNat n)) {b : UInt8}
    (hb : b < 0x80) : P b := by
  have hn := h ⟨b.toNat, UInt8.lt_iff_toNat_lt.mp hb⟩
  rw [UInt8.ofNat_toNat] at hn
  exact hn

theorem Ascii.toUpper_char {b : UInt8} (h : b < 0x80) : (char b).toUpper = char (upper b) :=
  forall_ascii (P := fun b => (char b).toUpper = char (upper b)) (by decide +kernel) h

/-- The character of an atom byte is neither a blank nor the bracket that ends a code. -/
theorem Ascii.char_of_isAtomByte {b : UInt8} (h : isAtomByte b) :
    isBlank (char b) = false ∧ char b ≠ ']' :=
  forall_ascii (P := fun b => isAtomByte b → isBlank (char b) = false ∧ char b ≠ ']')
    (by decide +kernel) (lt_of_isAtomByte h) h

/-- An ASCII byte at the beginning is a character by itself: what follows is UTF-8 with it if and
only if it is without it. -/
theorem ofUtf8?_cons {b : UInt8} (h : b < 0x80) (bs : Bytes) :
    ofUtf8? (b :: bs) = (ofUtf8? bs).map (asciiText [b] ++ ·) := by
  have hbyte : utf8 (asciiText [b]) = [b] := utf8_asciiText (by simpa using h)
  cases hread : ofUtf8? bs with
  | some t =>
    have hbytes : b :: bs = utf8 (asciiText [b] ++ t) := by
      rw [utf8_append, hbyte, utf8_of_ofUtf8? hread]
      rfl
    rw [hbytes, ofUtf8?_utf8]
    rfl
  | none =>
    show ofUtf8? (b :: bs) = none
    rw [Option.eq_none_iff_forall_ne_some]
    intro s hs
    have hs : s.toList.flatMap String.utf8EncodeChar = b :: bs := by
      rw [← utf8_eq_flatMap, utf8_of_ofUtf8? hs]
    cases hchars : s.toList with
    | nil => simp [hchars] at hs
    | cons c cs =>
      rw [hchars, List.flatMap_cons] at hs
      rcases utf8EncodeChar_cases c with ⟨-, hc⟩ | ⟨-, hc⟩
      · rw [hc, List.singleton_append, List.cons.injEq] at hs
        have hrest : utf8 (String.ofList cs) = bs := by rw [utf8_ofList, hs.2]
        rw [← hrest, ofUtf8?_utf8] at hread
        cases hread
      · cases hlong : String.utf8EncodeChar c with
        | nil =>
          have hlength : c.utf8Size = 0 := by rw [← String.length_utf8EncodeChar, hlong]; rfl
          exact absurd hlength (Nat.ne_of_gt c.utf8Size_pos)
        | cons lead tail =>
          rw [hlong, List.cons_append, List.cons.injEq] at hs
          have hlead : 0x80 ≤ lead := hc lead (by simp [hlong])
          rw [hs.1] at hlead
          exact absurd h (UInt8.not_lt.mpr hlead)

namespace Text

theorem toList_lossy_cons {b : UInt8} (h : b < 0x80) (bs : Bytes) :
    (lossy (b :: bs)).toList = Ascii.char b :: (lossy bs).toList := by
  rw [lossy, lossy, ofUtf8?_cons h]
  cases ofUtf8? bs with
  | some t =>
    simp only [Option.map_some, Option.getD_some, String.toList_append, toList_asciiText]
    rfl
  | none =>
    have hfirst : firstChar b bs = (Ascii.char b, 0) := by rw [firstChar, if_pos h]; rfl
    simp only [Option.map_none, Option.getD_none, String.toList_ofList]
    rw [lossyChars, hfirst]
    rfl

/-- ASCII bytes are read as themselves, whatever stands behind them. -/
theorem toList_lossy_append {bs : Bytes} (h : ∀ b ∈ bs, b < 0x80) (rest : Bytes) :
    (lossy (bs ++ rest)).toList = bs.map Ascii.char ++ (lossy rest).toList := by
  induction bs with
  | nil => rfl
  | cons b bs ih =>
    obtain ⟨hb, hbs⟩ := List.forall_mem_cons.mp h
    rw [List.cons_append, toList_lossy_cons hb, ih hbs]
    rfl

end Text

/-! ### Words with spaces between them -/

/-- A run of characters without a blank. -/
def IsWord (cs : List Char) : Prop := cs ≠ [] ∧ ∀ c ∈ cs, isBlank c = false

theorem splitOnP_spaced {word : List Char} {words : List (List Char)} (hword : IsWord word)
    (hwords : ∀ w ∈ words, IsWord w) :
    (word ++ words.flatMap (' ' :: ·)).splitOnP isBlank = word :: words := by
  induction words generalizing word with
  | nil =>
    rw [List.flatMap_nil, List.append_nil]
    exact List.splitOnP_eq_singleton hword.2
  | cons w words ih =>
    obtain ⟨hw, hrest⟩ := List.forall_mem_cons.mp hwords
    rw [List.flatMap_cons, List.cons_append,
      List.splitOnP_append_cons_of_forall_mem hword.2 ' ' rfl, ih hw hrest]

/-- Words with one space between them are separated as they were written. -/
theorem blankSeparated_spaced {word : List Char} {words : List (List Char)} (hword : IsWord word)
    (hwords : ∀ w ∈ words, IsWord w) :
    blankSeparated (word ++ words.flatMap (' ' :: ·)) = word :: words := by
  rw [blankSeparated, splitOnP_spaced hword hwords, List.filter_eq_self]
  intro w hw
  rcases List.mem_cons.mp hw with rfl | hw
  · simpa using hword.1
  · simpa using (hwords w hw).1

/-- The code of a text is what stands between the brackets. -/
theorem responseCode?_of_toList {text : String} {code tail : List Char} (hcode : ']' ∉ code)
    (h : text.toList = '[' :: (code ++ ']' :: tail)) : responseCode? text = some code := by
  have hplain : ∀ c ∈ code, decide (c ≠ ']') := by
    intro c hc
    rw [decide_eq_true_eq]
    rintro rfl
    exact hcode hc
  have hspan : (code ++ ']' :: tail).span (· ≠ ']') = (code, ']' :: tail) := by
    rw [List.span_eq_takeWhile_dropWhile, List.takeWhile_append_of_pos hplain,
      List.dropWhile_append_of_pos hplain]
    simp
  rw [responseCode?, h]
  simp only [hspan]

/-! ### Announced capabilities -/

theorem Word.isWord_chars (w : Word) : IsWord (w.bytes.map Ascii.char) := by
  refine ⟨by simpa using w.ne_nil, fun c hc => ?_⟩
  obtain ⟨b, hb, rfl⟩ := List.mem_map.mp hc
  exact (Ascii.char_of_isAtomByte (w.isAtom b hb)).1

/-- A keyword and words, with a space in front of each word. -/
def spacedWords (keyword : Bytes) (words : List PlainAtom) : Bytes :=
  keyword ++ words.flatMap fun w => Ascii.space :: w.bytes

theorem map_char_spacedWords (keyword : Bytes) (words : List PlainAtom) :
    (spacedWords keyword words).map Ascii.char = keyword.map Ascii.char ++
      (words.map fun w => w.bytes.map Ascii.char).flatMap (' ' :: ·) := by
  simp only [spacedWords, List.map_append, List.map_flatMap, List.flatMap_map, List.map_cons]
  rfl

/-- Words behind a keyword are atom bytes and spaces. -/
theorem mem_spacedWords (keyword : Word) {words : List PlainAtom} {b : UInt8}
    (h : b ∈ spacedWords keyword.bytes words) : isAtomByte b ∨ b = Ascii.space := by
  rcases List.mem_append.mp h with hb | hb
  · exact .inl (keyword.isAtom b hb)
  · obtain ⟨w, -, hb⟩ := List.mem_flatMap.mp hb
    rcases List.mem_cons.mp hb with rfl | hb
    · exact .inr rfl
    · exact .inl (w.isAtom b hb)

/-- The keyword of a code is known in any case. -/
theorem map_toUpper_spelling (keyword : Spelling (utf8 "CAPABILITY")) :
    (keyword.bytes.map Ascii.char).map Char.toUpper = "CAPABILITY".toList := by
  have hupper : (keyword.bytes.map Ascii.char).map Char.toUpper =
      (upperCase keyword.bytes).map Ascii.char := by
    rw [upperCase, List.map_map, List.map_map]
    refine List.map_congr_left fun b hb => Ascii.toUpper_char ?_
    exact lt_of_isAtomByte ((capabilityAtom.spelled keyword).isAtom b hb)
  rw [hupper, keyword.isKeyword]
  decide +kernel

/-- A code at the beginning of a text announces the capabilities that its words name. -/
theorem announcedCapabilities?_code (keyword : Spelling (utf8 "CAPABILITY"))
    (words : List PlainAtom) (rest : Bytes) :
    announcedCapabilities? (Text.lossy (Ascii.openBracket ::
      (spacedWords keyword.bytes words ++ Ascii.closeBracket :: rest))) =
    some (words.map fun w => Capability.ofText w.text) := by
  have hbytes : ∀ b ∈ spacedWords keyword.bytes words, isAtomByte b ∨ b = Ascii.space :=
    fun b hb => mem_spacedWords (capabilityAtom.spelled keyword).toWord hb
  have hascii : ∀ b ∈ spacedWords keyword.bytes words, b < 0x80 := by
    intro b hb
    rcases hbytes b hb with hatom | rfl
    · exact lt_of_isAtomByte hatom
    · decide
  have hbracket : ']' ∉ (spacedWords keyword.bytes words).map Ascii.char := by
    intro hmem
    obtain ⟨b, hb, hchar⟩ := List.mem_map.mp hmem
    rcases hbytes b hb with hatom | rfl
    · exact (Ascii.char_of_isAtomByte hatom).2 hchar
    · exact absurd hchar (by decide)
  have htext : (Text.lossy (Ascii.openBracket :: (spacedWords keyword.bytes words ++
      Ascii.closeBracket :: rest))).toList =
      '[' :: ((spacedWords keyword.bytes words).map Ascii.char ++
        ']' :: (Text.lossy rest).toList) := by
    rw [Text.toList_lossy_cons (by decide), Text.toList_lossy_append hascii,
      Text.toList_lossy_cons (by decide)]
    rfl
  have hwords : ∀ cs ∈ words.map fun w => w.bytes.map Ascii.char, IsWord cs := by
    intro cs hcs
    obtain ⟨w, -, rfl⟩ := List.mem_map.mp hcs
    exact w.isWord_chars
  have hkeyword : IsWord (keyword.bytes.map Ascii.char) :=
    (capabilityAtom.spelled keyword).isWord_chars
  rw [announcedCapabilities?, responseCode?_of_toList hbracket htext, map_char_spacedWords,
    Option.map_some, blankSeparated_spaced hkeyword hwords]
  dsimp only
  rw [if_pos (map_toUpper_spelling keyword), List.map_map]
  rfl

end ImapSearch
