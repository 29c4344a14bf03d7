import ImapSearch.Proofs.Scan.Reads

/-!
# ImapSearch.Proofs.Scan.Argument

**A string argument is read back.** A command sends a text between quotes or as a
literal (`Text.argument`). The scan for strings, which reads the responses of a server,
takes up both forms and gives the text that was written, wherever the argument stands and
whatever follows it (`Scan.gives_argument`).

The form is determined by the bytes of the text. If each of them may stand between quotes
(`IsQuotable`), it is a quoted string of the grammar (`QuotedContent`); otherwise a
literal that announces the number of these bytes (`Scan.readBack_argument`).
-/

namespace ImapSearch

/-- The byte may stand between quotes: it is ASCII, but not a line break or NUL. -/
def IsQuotable (b : UInt8) : Prop := b ≠ Ascii.cr ∧ b ≠ Ascii.lf ∧ b ≠ Ascii.nul ∧ b < 0x80

/-- What stands between the quotes of a quoted string. -/
inductive QuotedContent : Bytes → Prop
  /-- There may be nothing. -/
  | nil : QuotedContent []
  /-- A byte that is neither a quote nor a backslash stands for itself. -/
  | plain {b : UInt8} {bs : Bytes} (hb : IsQuotable b) (hquote : b ≠ Ascii.quote)
      (hbackslash : b ≠ Ascii.backslash) (h : QuotedContent bs) : QuotedContent (b :: bs)
  /-- In front of a quote or a backslash there is a backslash. -/
  | escaped {b : UInt8} {bs : Bytes} (hb : b = Ascii.quote ∨ b = Ascii.backslash)
      (h : QuotedContent bs) : QuotedContent (Ascii.backslash :: b :: bs)

theorem isQuotable_quote : IsQuotable Ascii.quote := by unfold IsQuotable; decide

theorem QuotedContent.isQuotable {bs : Bytes} (h : QuotedContent bs) : ∀ b ∈ bs, IsQuotable b := by
  have hbackslash : IsQuotable Ascii.backslash := by unfold IsQuotable; decide
  induction h with
  | nil => simp
  | plain hb _ _ _ ih => exact List.forall_mem_cons.mpr ⟨hb, ih⟩
  | escaped hb _ ih =>
    refine List.forall_mem_cons.mpr ⟨hbackslash, List.forall_mem_cons.mpr ⟨?_, ih⟩⟩
    rcases hb with rfl | rfl
    · exact isQuotable_quote
    · exact hbackslash

namespace Text

theorem not_needsLiteral_iff {b : UInt8} : ¬ needsLiteral b ↔ IsQuotable b := by
  simp only [needsLiteral, IsQuotable, Bool.or_eq_true, beq_iff_eq, decide_eq_true_eq, not_or]
  grind

/-- A text is sent between quotes if each of its bytes may stand there. -/
theorem not_isLiteral_iff {s : String} : ¬ isLiteral s ↔ ∀ b ∈ utf8 s, IsQuotable b := by
  simp only [isLiteral, List.any_eq_true, not_exists, not_and, not_needsLiteral_iff]

theorem quotedContent_flatMap {bs : Bytes} (h : ∀ b ∈ bs, IsQuotable b) :
    QuotedContent (bs.flatMap quoteByte) := by
  induction bs with
  | nil => exact .nil
  | cons b bs ih =>
    obtain ⟨hb, hbs⟩ := List.forall_mem_cons.mp h
    rw [List.flatMap_cons, quoteByte]
    split
    next hescape => exact .escaped hescape (ih hbs)
    next hplain =>
      rw [not_or] at hplain
      exact .plain hb hplain.1 hplain.2 (ih hbs)

/-- A text between quotes as what the scan reads. -/
def quotable (s : String) (h : ¬ isLiteral s) : QuotedText where
  text := s
  oneLine := fun b hb => ⟨(not_isLiteral_iff.mp h b hb).1, (not_isLiteral_iff.mp h b hb).2.1⟩

/-- A text as a literal as what the scan reads. -/
def counted (s : String) (h : (utf8 s).length < sizeBound) : LiteralText where
  digits := Decimal.encode (utf8 s).length
  plus := true
  data := utf8 s
  size := Decimal.decodeBelow?_eq_some_iff.mpr
    ⟨Decimal.encode_ne_nil _, fun _ => Decimal.isDigit_of_mem_encode, Decimal.value_encode _, h⟩

theorem bytes_counted {s : String} (h : (utf8 s).length < sizeBound) :
    (counted s h).bytes = literal (utf8 s) := by
  simp [counted, LiteralText.bytes, literal, crlf]

end Text

namespace Scan

variable {P : Bytes → Prop}

/-- An argument is read as the text that it was written for. -/
theorem gives_argument {s : String} (h : (utf8 s).length < sizeBound) :
    string.Gives P (Text.argument s) (some s) := by
  rw [Text.argument]
  split
  next =>
    rw [← Text.bytes_counted h]
    refine (gives_literal (Text.counted s h)).finish ?_
    dsimp only [Text.counted]
    rw [ofUtf8?_utf8]
    exact gives_pure s
  next hquoted => exact (gives_quoted (Text.quotable s hquoted)).finish (gives_pure s)

/-- An argument is read back at any place and whatever follows it, and reading stops where it ends.
A text of bytes that may stand between quotes is written as a quoted string of such bytes, and any
other text as a literal that announces how many bytes it has. The size of a literal is a number of
64 bits, as is that of every text in memory. -/
theorem readBack_argument (s : String) (h : (utf8 s).length < sizeBound) :
    (∀ pos rest, string ⟨pos, Text.argument s ++ rest⟩ =
      .ok s ⟨pos + (Text.argument s).length, rest⟩) ∧
    ((∀ b ∈ utf8 s, IsQuotable b) → (∀ b ∈ Text.argument s, IsQuotable b) ∧
      ∃ content, QuotedContent content ∧
        Text.argument s = Ascii.quote :: content ++ [Ascii.quote]) ∧
    ((∃ b ∈ utf8 s, ¬ IsQuotable b) → ∃ digits, Decimal.decode? digits = some (utf8 s).length ∧
      Text.argument s = Ascii.openBrace :: digits ++ [Ascii.plus, Ascii.closeBrace] ++ crlf ++
        utf8 s) := by
  refine ⟨fun pos rest => ?back, fun hquotable => ?quoted, fun hcounted => ?literal⟩
  case back => exact gives_argument (P := fun _ => True) h pos rest trivial
  case quoted =>
    have hcontent : QuotedContent ((utf8 s).flatMap Text.quoteByte) :=
      Text.quotedContent_flatMap hquotable
    have hform : Text.argument s =
        Ascii.quote :: (utf8 s).flatMap Text.quoteByte ++ [Ascii.quote] := by
      rw [Text.argument, if_neg (Text.not_isLiteral_iff.mpr hquotable)]
      rfl
    refine ⟨fun b hb => ?_, _, hcontent, hform⟩
    rw [hform, List.cons_append, List.mem_cons, List.mem_append, List.mem_singleton] at hb
    rcases hb with rfl | hb | rfl
    · exact isQuotable_quote
    · exact hcontent.isQuotable b hb
    · exact isQuotable_quote
  case literal =>
    refine ⟨Decimal.encode (utf8 s).length, Decimal.decode?_encode _, ?_⟩
    have hliteral : Text.isLiteral s := by
      by_contra hquoted
      obtain ⟨b, hb, hbad⟩ := hcounted
      exact hbad (Text.not_isLiteral_iff.mp hquoted b hb)
    rw [Text.argument, if_pos hliteral]
    rfl

/-- Quotes and backslashes between quotes, and a text that looks like a literal as a literal. -/
theorem readBack_argument_bothForms :
    Text.argument "a\\\"" = utf8 "\"a\\\\\\\"\"" ∧
    string ⟨7, Text.argument "a\\\"" ++ utf8 "\" b"⟩ = .ok "a\\\"" ⟨14, utf8 "\" b"⟩ ∧
    Text.argument "é\r\n\x7b0\x7d" = utf8 "\x7b7+\x7d\r\né\r\n\x7b0\x7d" ∧
    string ⟨7, Text.argument "é\r\n\x7b0\x7d" ++ utf8 "\" b"⟩ =
      .ok "é\r\n\x7b0\x7d" ⟨20, utf8 "\" b"⟩ := by
  refine ⟨by decide +kernel, ?_, by decide +kernel, ?_⟩
  · exact (readBack_argument "a\\\"" (by decide +kernel)).1 7 (utf8 "\" b")
  · exact (readBack_argument "é\r\n\x7b0\x7d" (by decide +kernel)).1 7 (utf8 "\" b")

end Scan

end ImapSearch
