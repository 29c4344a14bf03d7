import ImapSearch.Proofs.Framing.Responses

/-!
# ImapSearch.Proofs.Framing.LiteralLimit

**Headers above the limit.** A line of a response can end in the header of a literal that
is larger than the limit allows. If the size fits 64 bits, reading fails behind that line,
and the error names the size and the limit. But digits that write a larger number are no
header to the reader: the line ends the response, and what follows it is read as other
responses (`Framing.readResponse_oversized`).

This holds for every line of a response. The literals that were read before it stand in
front of what is delivered (`Framing.readResponse_of_segments`).
-/

namespace ImapSearch

theorem Arrival.prepend_nil (arrival : Arrival Bytes) : arrival.prepend [] = arrival := by
  cases arrival <;> rfl

theorem Arrival.prepend_append (front more : Bytes) (arrival : Arrival Bytes) :
    arrival.prepend (front ++ more) = (arrival.prepend more).prepend front := by
  cases arrival with
  | complete value rest => exact congrArg (Arrival.complete · rest) (List.append_assoc _ _ _)
  | failed | crashed | waiting => rfl

namespace Framing

/-! ### Literals within the limits -/

/-- A line that announces a literal and its data, both within their limits. -/
structure Segment.Fits (settings : Settings) (segment : Segment) : Prop where
  valid : segment.Valid
  line_lt : segment.line.length < settings.maxLine + crlf.length
  admits : Admits settings.maxLiteral segment.data.length

variable {settings : Settings} {s : ByteSource}

theorem readResponse_of_segment {segment : Segment} (h : segment.Fits settings) {more : Bytes}
    (hs : s.bytes = segment.bytes ++ more) :
    ∃ rest, rest.bytes = more ∧
      readResponse settings s = (readResponse settings rest).prepend segment.bytes := by
  obtain ⟨line, data⟩ := segment
  obtain ⟨⟨⟨content, rfl, hcontent⟩, hsize⟩, hline, hlimit⟩ := h
  have hfits : content.length < settings.maxLine := by
    rw [List.length_append] at hline
    exact Nat.lt_of_add_lt_add_right hline
  have hbytes : s.bytes = content ++ (crlf ++ (data ++ more)) := by
    simpa only [Segment.bytes, List.append_assoc] using hs
  obtain ⟨rest, hread, hrest, -⟩ := readResponse_of_literal hcontent hfits hsize hlimit hbytes
  exact ⟨rest, hrest, hread⟩

/-- Behind any number of literals the response goes on. -/
theorem readResponse_of_segments {segments : List Segment}
    (h : ∀ segment ∈ segments, segment.Fits settings) {more : Bytes}
    (hs : s.bytes = segments.flatMap Segment.bytes ++ more) :
    ∃ rest, rest.bytes = more ∧ readResponse settings s =
      (readResponse settings rest).prepend (segments.flatMap Segment.bytes) := by
  induction segments generalizing s with
  | nil => exact ⟨s, hs, (Arrival.prepend_nil _).symm⟩
  | cons segment segments ih =>
    rw [List.forall_mem_cons] at h
    rw [List.flatMap_cons, List.append_assoc] at hs
    obtain ⟨afterFirst, hbytes, hfirst⟩ := readResponse_of_segment h.1 hs
    obtain ⟨rest, hrest, hothers⟩ := ih h.2 hbytes
    refine ⟨rest, hrest, ?_⟩
    rw [hfirst, hothers, List.flatMap_cons, Arrival.prepend_append]

/-! ### Literals above the limit -/

/-- A literal header, with any number of digits. -/
structure LiteralHeader where
  digits : Bytes
  ne_nil : digits ≠ []
  isDigit : ∀ d ∈ digits, Ascii.isDigit d
  /-- Whether a plus sign stands behind the size. -/
  plus : Bool

namespace LiteralHeader

/-- The bytes of the header. -/
def bytes (h : LiteralHeader) : Bytes :=
  Ascii.openBrace :: (h.digits ++ ((if h.plus then [Ascii.plus] else []) ++ [Ascii.closeBrace]))

/-- The size that the digits write. -/
def size (h : LiteralHeader) : Nat := Decimal.value h.digits

/-- A header is one to the reader if its size fits 64 bits. -/
theorem announcedSize?_eq (h : LiteralHeader) (before : Bytes) :
    announcedSize? (before ++ h.bytes ++ crlf) =
      if h.size < sizeBound then some h.size else none := by
  have hmark : (if h.plus then [Ascii.plus] else []) = ([] : Bytes) ∨
      (if h.plus then [Ascii.plus] else []) = [Ascii.plus] := by
    cases h.plus
    · exact .inl rfl
    · exact .inr rfl
  rw [bytes, announcedSize?_header h.ne_nil h.isDigit hmark,
    Decimal.decodeBelow?_of_isDigit h.ne_nil h.isDigit, size]

end LiteralHeader

/-- The literal limit, exactly: whatever the chunks are, and whatever literals of the response were
read before, a line that ends in the header of a literal above the limit makes reading fail if the
size fits 64 bits. If it does not, the line is delivered as the end of the response. In both cases
the rest of the stream is left. -/
theorem readResponse_oversized {begun : List Segment}
    (hbegun : ∀ segment ∈ begun, segment.Fits settings) (before : Bytes)
    (header : LiteralHeader) {more : Bytes} (hline : ¬ crlf <:+: before ++ header.bytes)
    (hfits : (before ++ header.bytes).length < settings.maxLine)
    (hlarge : settings.maxLiteral < header.size)
    (hs : s.bytes =
      begun.flatMap Segment.bytes ++ (before ++ header.bytes ++ (crlf ++ more))) :
    ∃ rest, rest.bytes = more ∧ readResponse settings s =
      if header.size < sizeBound then
        .failed (.literalTooLarge header.size settings.maxLiteral) rest
      else .complete (begun.flatMap Segment.bytes ++ (before ++ header.bytes ++ crlf)) rest := by
  obtain ⟨afterBegun, hbytes, hread⟩ := readResponse_of_segments hbegun hs
  obtain ⟨rest, hreadLine, hrest, -⟩ := exists_readLine hline hfits hbytes
  refine ⟨rest, hrest, ?_⟩
  rw [hread, readResponse_of_line hreadLine, header.announcedSize?_eq]
  by_cases hsize : header.size < sizeBound
  · rw [if_pos hsize, if_pos hsize]
    dsimp only
    rw [readLiteral_of_large hlarge]
    rfl
  · rw [if_neg hsize, if_neg hsize]
    rfl

/-- Behind a literal of two bytes, the header of one that is larger than the limit by one byte, and
the header of one whose size is the first that does not fit 64 bits. What follows looks like a
completion. -/
theorem readResponse_oversized_forged :
    (∃ rest, rest.bytes = utf8 "A0 OK\r\n" ∧
      readResponse { maxLiteral := 16 }
          { chunks := [utf8 "* \x7b2\x7d\r\nab", utf8 " \x7b17+\x7d\r", utf8 "\nA0 OK\r\n"] } =
        .failed (.literalTooLarge 17 16) rest) ∧
    ∃ rest, rest.bytes = utf8 "A0 OK\r\n" ∧
      readResponse { maxLiteral := 16 }
          { chunks := [utf8 "* \x7b2\x7d\r\nab \x7b18446744073709551616\x7d\r\nA0 OK\r\n"] } =
        .complete (utf8 "* \x7b2\x7d\r\nab \x7b18446744073709551616\x7d\r\n") rest := by
  have hbegun : ∀ segment ∈ [Segment.mk (utf8 "* \x7b2\x7d\r\n") (utf8 "ab")],
      segment.Fits { maxLiteral := 16 } := by
    intro segment hsegment
    obtain rfl := List.mem_singleton.mp hsegment
    exact ⟨⟨⟨utf8 "* \x7b2\x7d", by decide +kernel, by decide +kernel⟩, by decide +kernel⟩,
      by decide +kernel, ⟨by decide +kernel, by decide +kernel⟩⟩
  constructor
  · exact readResponse_oversized hbegun (utf8 " ")
      ⟨utf8 "17", by decide +kernel, by decide +kernel, true⟩
      (by decide +kernel) (by decide +kernel) (by decide +kernel) (by decide +kernel)
  · exact readResponse_oversized hbegun (utf8 " ")
      ⟨utf8 "18446744073709551616", by decide +kernel, by decide +kernel, false⟩
      (by decide +kernel) (by decide +kernel) (by decide +kernel) (by decide +kernel)

end Framing

end ImapSearch
