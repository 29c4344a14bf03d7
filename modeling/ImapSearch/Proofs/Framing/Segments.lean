import ImapSearch.Proofs.Framing.Line

/-!
# ImapSearch.Proofs.Framing.Segments

**What a response was read from.** A response that was read is a number of segments,
each a line that announces a literal with the data that were read behind it, and then a
line that announces none (`exists_framed`). Whatever the limits and the chunks are, each
of these lines ends at its first terminator (`Framed.isLine_last`), and the data are as
many bytes as the line announces.
-/

namespace ImapSearch

/-! ### The content of a line -/

/-- What stands in front of the first terminator holds none. -/
theorem not_crlf_infix_of_splitCrlf {bs content after : Bytes}
    (h : splitCrlf bs = some (content, after)) : ¬ crlf <:+: content := by
  induction bs generalizing content with
  | nil => cases h
  | cons b rest ih =>
    rw [splitCrlf] at h
    split at h
    next => cases h; decide
    next hb =>
      simp only [Option.map_eq_some_iff, Prod.exists, Prod.mk.injEq] at h
      obtain ⟨content, after, hs, rfl, rfl⟩ := h
      rw [List.infix_cons_iff, not_or]
      refine ⟨?_, ih hs⟩
      rintro ⟨tail, htail⟩
      obtain ⟨rfl, rfl⟩ := List.cons.inj htail
      refine hb ⟨rfl, ?_⟩
      rw [eq_of_splitCrlf hs]
      rfl

/-- Bytes in which there is no terminator, and one behind them. The last of the bytes may be the
first half of a terminator. -/
theorem splitCrlf_append_terminator {bs : Bytes} (h : splitCrlf bs = none) (more : Bytes) :
    splitCrlf (bs ++ (crlf ++ more)) = some (bs, more) := by
  have hcut : ¬ (bs.getLast? = some Ascii.cr ∧ (crlf ++ more).head? = some Ascii.lf) := by
    intro hcut
    exact absurd (Option.some.inj hcut.2) (by decide)
  rw [splitCrlf_append_of_none h hcut]
  simp [crlf, splitCrlf]

/-- Bytes are not split if, and only if, there is no terminator in them. -/
theorem splitCrlf_eq_none_iff {bs : Bytes} : splitCrlf bs = none ↔ ¬ crlf <:+: bs := by
  constructor
  · intro h
    exact not_crlf_infix_of_splitCrlf (splitCrlf_append_terminator h [])
  · intro h
    cases hs : splitCrlf bs with
    | none => rfl
    | some parts => exact absurd ⟨parts.1, parts.2, (eq_of_splitCrlf hs).symm⟩ h

/-- A line: its content, in which there is no terminator, and a terminator. -/
def IsLine (line : Bytes) : Prop := ∃ content, line = content ++ crlf ∧ ¬ crlf <:+: content

namespace Framing

theorem isLine_of_readLine {maxLine : Nat} {line value : Bytes} {s rest : ByteSource}
    (hline : splitCrlf line = none) (h : readLine maxLine line s = .complete value rest) :
    IsLine value := by
  -- A line ends with a piece that begins with the second half of a terminator (3) or that holds a
  -- terminator (5).
  fun_induction readLine maxLine line s with
  | case1 => cases h
  | case2 => cases h
  | case3 line s b tail hb hcut =>
    cases h
    obtain ⟨hcr, rfl⟩ := hcut
    refine ⟨line.dropLast, ?_, not_crlf_infix_of_splitCrlf (splitCrlf_append_lf hline hcr [])⟩
    obtain ⟨front, rfl⟩ := List.getLast?_eq_some_iff.mp hcr
    simp [crlf]
  | case4 => cases h
  | case5 line s b tail hb hcut before after hs hlong =>
    cases h
    exact ⟨line ++ before, rfl,
      not_crlf_infix_of_splitCrlf (splitCrlf_piece_some hline hcut hs [])⟩
  | case6 => cases h
  | case7 line s b tail hb hcut hs hlong ih => exact ih (splitCrlf_piece_none hline hcut hs) h

/-! ### Segments -/

/-- A line that announces a literal, and the data that were read behind it. -/
structure Segment where
  line : Bytes
  data : Bytes

/-- The bytes of a segment. -/
def Segment.bytes (segment : Segment) : Bytes := segment.line ++ segment.data

/-- How a response is read: lines that announce literals, each with its data, then a line that
announces none. -/
inductive Framed (settings : Settings) : ByteSource → List Segment → Bytes → ByteSource → Prop
  | last {s rest : ByteSource} {line : Bytes}
      (hline : readLine settings.maxLine [] s = .complete line rest)
      (hsize : announcedSize? line = none) : Framed settings s [] line rest
  | literal {s afterLine afterData rest : ByteSource} {line data last : Bytes} {size : Nat}
      {segments : List Segment}
      (hline : readLine settings.maxLine [] s = .complete line afterLine)
      (hsize : announcedSize? line = some size) (hlimit : size ≤ settings.maxLiteral)
      (hdata : readExactly size afterLine = .complete data afterData)
      (hrest : Framed settings afterData segments last rest) :
      Framed settings s (⟨line, data⟩ :: segments) last rest

variable {settings : Settings} {s rest : ByteSource}

/-- A response that was read is its segments and its last line. -/
theorem exists_framed {response : Bytes} (h : readResponse settings s = .complete response rest) :
    ∃ segments last, Framed settings s segments last rest ∧
      response = segments.flatMap Segment.bytes ++ last := by
  fun_induction readResponse settings s generalizing response rest with
  | case1 s line afterLine hline hsize =>
    cases h
    exact ⟨[], line, .last hline hsize, rfl⟩
  | case2 s line afterLine hline size hsize data afterData hliteral ih =>
    obtain ⟨more, hmore, rfl⟩ := Arrival.exists_of_prepend h
    obtain ⟨hlimit, -, hdata⟩ := of_readLiteral hliteral
    obtain ⟨segments, last, hframed, rfl⟩ := ih hmore
    refine ⟨⟨line, data⟩ :: segments, last, .literal hline hsize hlimit hdata hframed, ?_⟩
    rw [List.flatMap_cons, Segment.bytes, List.append_assoc _ _ last]
  | case3 s line afterLine hline size hsize hstopped => exact absurd h (hstopped _ _)
  | case4 s hstopped => exact absurd h (hstopped _ _)

/-- A segment is a line, and as many bytes as it announces. -/
def Segment.Valid (segment : Segment) : Prop :=
  IsLine segment.line ∧ announcedSize? segment.line = some segment.data.length

theorem Framed.valid {segments : List Segment} {last : Bytes}
    (h : Framed settings s segments last rest) : ∀ segment ∈ segments, segment.Valid := by
  induction h with
  | last => simp
  | literal hline hsize _ hdata _ ih =>
    refine List.forall_mem_cons.mpr ⟨⟨isLine_of_readLine rfl hline, ?_⟩, ih⟩
    rw [hsize, (bytes_of_readExactly hdata).1]

theorem Framed.isLine_last {segments : List Segment} {last : Bytes}
    (h : Framed settings s segments last rest) : IsLine last ∧ announcedSize? last = none := by
  induction h with
  | last hline hsize => exact ⟨isLine_of_readLine rfl hline, hsize⟩
  | literal _ _ _ _ _ ih => exact ih

end Framing

end ImapSearch
