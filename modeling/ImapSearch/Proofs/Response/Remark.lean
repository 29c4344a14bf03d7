import ImapSearch.Proofs.Framing.Segments
import ImapSearch.Proofs.Scan.Atom

/-!
# ImapSearch.Proofs.Response.Remark

**The end of a line.** Behind its keyword a response can have a text for people to
read, or bytes that the parser reads over. Both reach up to the first line terminator.
A carriage return or a line feed by itself is a byte like any other, and the text may
begin or end with one (`LineText`, `LineBytes`).

The space in front of a text is not part of it. Only that one is taken off, so a text
that begins with a space keeps it, and without a space there is an empty text
(`Scan.gives_remark`). A tagged response, which is a tag, a status and a text, is then
read as a whole (`Scan.gives_response_tagged`).
-/

namespace ImapSearch

/-! ### Texts without a line terminator -/

/-- Bytes without a line terminator. -/
structure LineBytes where
  bytes : Bytes
  noTerminator : ¬ crlf <:+: bytes

/-- A text without a line terminator. -/
structure LineText where
  text : String
  noTerminator : ¬ crlf <:+: utf8 text

/-- The bytes of a text. -/
def LineText.toBytes (t : LineText) : LineBytes := ⟨utf8 t.text, t.noTerminator⟩

/-- What stands between a keyword and the line terminator: a space and some bytes, or nothing. -/
def lineTail : Option LineBytes → Bytes
  | none => []
  | some rest => Ascii.space :: rest.bytes

theorem not_crlf_infix_lineTail (rest : Option LineBytes) : ¬ crlf <:+: lineTail rest := by
  cases rest with
  | none => decide
  | some rest =>
    rw [lineTail, List.infix_cons_iff, not_or]
    refine ⟨?_, rest.noTerminator⟩
    rintro ⟨tail, htail⟩
    exact absurd (List.cons.inj htail).1 (by decide)

/-- A keyword ends where the rest of its line begins. -/
theorem endsWord_lineTail (rest : Option LineBytes) (more : Bytes) :
    EndsWord (lineTail rest ++ crlf ++ more) := by
  cases rest with
  | none => exact endsWord_cons (by decide) _
  | some rest => exact endsWord_cons (by decide) _

namespace Scan

variable {P : Bytes → Prop}

/-! ### Reading up to the line terminator -/

theorem gives_line {bs : Bytes} (h : ¬ crlf <:+: bs) : line.Gives P (bs ++ crlf) (some bs) := by
  intro pos rest _
  have hlength : bs.length + 2 = (bs ++ crlf).length := by
    rw [List.length_append]
    rfl
  have hsplit := splitCrlf_append_terminator (splitCrlf_eq_none_iff.mpr h) rest
  rw [line, List.append_assoc, hsplit]
  show EStateM.Result.ok bs (Cursor.skip _ (bs.length + 2)) = _
  simp [Cursor.skip, hlength, ← List.append_assoc]

/-- A text is read without the one space in front of it. -/
theorem gives_remark (text : Option LineText) :
    remark.Gives P (lineTail (text.map LineText.toBytes) ++ crlf)
      (some (text.elim "" LineText.text)) := by
  cases text with
  | none =>
    intro pos rest _
    rfl
  | some text =>
    have hline := (gives_line text.noTerminator (P := P)).map Text.lossy
    rw [Option.map_some, Text.lossy_utf8] at hline
    exact (gives_eat Ascii.space).before hline

/-! ### Tagged responses -/

end Scan

/-- The word of a status, as an atom. -/
def Status.atom (status : Status) : UpperAtom :=
  .ofBytes status.word (by cases status <;> decide +kernel)

theorem Status.ofWord?_spelling {status : Status} (word : Spelling status.word) :
    ofWord? word.bytes = some status := by
  rw [ofWord?, word.isKeyword]
  cases status <;> decide +kernel

namespace Scan

/-- A status is read in any case. -/
theorem gives_status {s : Status} (word : Spelling s.word) :
    status.Gives EndsWord word.bytes (some s) := by
  refine (gives_atom (s.atom.spelled word)).finish ?_
  dsimp only [UpperAtom.spelled, PlainAtom.respell]
  rw [Status.ofWord?_spelling word]
  exact gives_pure s

theorem gives_response_tagged (tag : PlainAtom) {s : Status} (word : Spelling s.word)
    (text : Option LineText) :
    response.Gives P (tag.bytes ++ ([Ascii.space] ++ (word.bytes ++
      (lineTail (text.map LineText.toBytes) ++ crlf))))
      (some (.tagged ⟨tag.text⟩ s (text.elim "" LineText.text))) := by
  refine (gives_plainAtom tag).then ?_ fun rest _ => endsWord_cons (by decide) _
  refine gives_expectSpace.before ?_
  refine (gives_status word).then ?_ fun rest _ => endsWord_lineTail _ rest
  exact (gives_remark text).finish (gives_pure _)

end Scan

theorem Response.parse_of_gives {P : Bytes → Prop} {bs rest : Bytes} {r : Response}
    (h : Scan.response.Gives P bs (some r)) (hrest : P rest) : parse (bs ++ rest) = .ok r := by
  rw [parse, Cursor.start, h 0 rest hrest]

end ImapSearch
