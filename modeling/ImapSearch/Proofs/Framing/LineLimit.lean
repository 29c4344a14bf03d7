import ImapSearch.Proofs.Framing.Responses

/-!
# ImapSearch.Proofs.Framing.LineLimit

**Where the limit on lines lies.** The limit is one on the bytes in front of the line
terminator. But the reader looks at it piece by piece, as the buffer takes in the bytes
(`breaksAt`), and where a piece ends between the two bytes of the terminator, it has counted
the first of them. So the limit is exact for every line but one that is as long as the
limit: that one is read if its terminator arrives in one piece, and refused if not
(`Framing.readResponse_limit`).
-/

namespace ImapSearch

/-! ### Where the buffer ends -/

/-- Whether the buffer takes in the first `n` bytes of the chunks without a byte behind them. It
takes in a chunk in pieces of its own size, and ends at the end of a chunk. -/
def breaksAt (n : Nat) : List Bytes → Bool
  | [] => n == 0
  | chunk :: rest =>
    if n < chunk.length then n % ByteSource.bufferSize == 0 else breaksAt (n - chunk.length) rest

theorem breaksAt_zero (chunks : List Bytes) : breaksAt 0 chunks := by
  induction chunks with
  | nil => rfl
  | cons chunk rest ih =>
    rw [breaksAt]
    split
    · rfl
    · rw [Nat.zero_sub]
      exact ih

/-- There is no break inside of a piece. -/
theorem not_breaksAt_of_lt {n : Nat} (hn : 0 < n) {chunks : List Bytes}
    (h : n < (takeChunk ByteSource.bufferSize chunks).1.length) : ¬ breaksAt n chunks := by
  induction chunks with
  | nil => exact absurd h (Nat.not_lt_zero n)
  | cons chunk rest ih =>
    rw [takeChunk] at h
    rw [breaksAt]
    split at h
    next hchunk =>
      subst hchunk
      exact ih h
    next hchunk =>
      rw [List.length_take] at h
      have hinside : n < chunk.length := by omega
      have hremainder : n % ByteSource.bufferSize = n := Nat.mod_eq_of_lt (by omega)
      rw [if_pos hinside, hremainder, beq_iff_eq]
      exact Nat.ne_of_gt hn

/-- Behind a piece the breaks are those of the chunks that are left. -/
theorem breaksAt_takeChunk (n : Nat) (chunks : List Bytes) :
    breaksAt ((takeChunk ByteSource.bufferSize chunks).1.length + n) chunks =
      breaksAt n (takeChunk ByteSource.bufferSize chunks).2 := by
  induction chunks with
  | nil =>
    rw [takeChunk, List.length_nil, Nat.zero_add]
  | cons chunk rest ih =>
    rw [takeChunk]
    split
    next hchunk =>
      subst hchunk
      exact ih
    next hchunk =>
      rw [breaksAt, breaksAt, List.length_take, List.length_drop]
      by_cases hinside : min ByteSource.bufferSize chunk.length + n < chunk.length
      · have hpiece : min ByteSource.bufferSize chunk.length = ByteSource.bufferSize := by omega
        have hleft : n < chunk.length - ByteSource.bufferSize := by omega
        rw [if_pos hinside, if_pos hleft, hpiece, Nat.add_mod_left]
      · have hleft : ¬ n < chunk.length - ByteSource.bufferSize := by omega
        have hrest : min ByteSource.bufferSize chunk.length + n - chunk.length =
            n - (chunk.length - ByteSource.bufferSize) := by omega
        rw [if_neg hinside, if_neg hleft, hrest]

namespace Framing

/-! ### Lines -/

section Piece

variable {s : ByteSource} (hempty : s.buffer = [])

include hempty

/-- What the buffer takes in when it is empty. -/
theorem fill_of_empty : s.fill =
    { s with
      buffer := (takeChunk ByteSource.bufferSize s.chunks).1
      chunks := (takeChunk ByteSource.bufferSize s.chunks).2 } := by
  rw [ByteSource.fill, if_pos hempty]

theorem breaksAt_fill (n : Nat) :
    breaksAt (s.fill.buffer.length + n) s.chunks = breaksAt n s.fill.chunks := by
  rw [fill_of_empty hempty]
  exact breaksAt_takeChunk n s.chunks

theorem not_breaksAt_fill {n : Nat} (hn : 0 < n) (h : n < s.fill.buffer.length) :
    ¬ breaksAt n s.chunks := by
  rw [fill_of_empty hempty] at h
  exact not_breaksAt_of_lt hn h

end Piece

/-- Whether a line of `n` bytes is refused, if all but its first `begun` bytes come from the
chunks. -/
def IsTooLong (maxLine n begun : Nat) (chunks : List Bytes) : Prop :=
  maxLine < n ∨ n = maxLine ∧ breaksAt (n + 1 - begun) chunks

theorem not_isTooLong_iff {maxLine n begun : Nat} {chunks : List Bytes} :
    ¬ IsTooLong maxLine n begun chunks ↔
      n < maxLine ∨ n = maxLine ∧ ¬ breaksAt (n + 1 - begun) chunks := by
  rw [IsTooLong, not_or, not_and, Nat.not_lt, Nat.le_iff_lt_or_eq]
  grind

/-- A piece that ends in the line or behind the first half of its terminator decides nothing. -/
theorem isTooLong_fill {maxLine n begun : Nat} {s : ByteSource} (hempty : s.buffer = [])
    (h : begun + s.fill.buffer.length ≤ n + 1) : IsTooLong maxLine n begun s.chunks ↔
      IsTooLong maxLine n (begun + s.fill.buffer.length) s.fill.chunks := by
  have hnext : n + 1 - begun =
      s.fill.buffer.length + (n + 1 - (begun + s.fill.buffer.length)) := by omega
  rw [IsTooLong, IsTooLong, hnext, breaksAt_fill hempty]

/-- A line is read as it is, or it is too long and is refused. -/
theorem readLine_limit {maxLine : Nat} {line content after : Bytes} {s : ByteSource}
    (hempty : s.buffer = []) (hline : splitCrlf line = none)
    (h : splitCrlf (line ++ s.bytes) = some (content, after)) (hbegun : line.length ≤ maxLine) :
    (IsTooLong maxLine content.length line.length s.chunks ∧
      ∃ rest, readLine maxLine line s = .failed .lineTooLong rest) ∨
    (¬ IsTooLong maxLine content.length line.length s.chunks ∧
      ∃ rest, readLine maxLine line s = .complete (content ++ crlf) rest ∧ rest.bytes = after) := by
  -- The line ends with the second half of a terminator (3) or in a piece that holds one (4, 5). A
  -- piece that holds none ends in front of the second half (6, 7).
  fun_induction readLine maxLine line s with
  | case1 line s hb hended =>
    rw [ByteSource.buffer_fill_eq_nil hb, List.append_nil, hline] at h
    cases h
  | case2 line s hb hended =>
    rw [ByteSource.buffer_fill_eq_nil hb, List.append_nil, hline] at h
    cases h
  | case3 line s b tail hb hcut =>
    obtain ⟨hcr, rfl⟩ := hcut
    rw [bytes_of_buffer hb, List.cons_append, splitCrlf_append_lf hline hcr] at h
    cases h
    obtain ⟨front, rfl⟩ := List.getLast?_eq_some_iff.mp hcr
    rw [List.length_append, List.length_singleton] at hbegun
    rw [List.dropLast_concat]
    refine .inr ⟨?_, _, by rw [List.append_assoc]; rfl, rfl⟩
    intro hlong
    rcases hlong with hlimit | ⟨hlimit, -⟩
    · omega
    · omega
  | case4 line s b tail hb hcut before after' hs hlong =>
    rw [bytes_of_buffer hb, splitCrlf_piece_some hline hcut hs] at h
    cases h
    rw [← List.length_append] at hlong
    exact .inl ⟨.inl hlong, _, rfl⟩
  | case5 line s b tail hb hcut before after' hs hlong =>
    rw [bytes_of_buffer hb, splitCrlf_piece_some hline hcut hs] at h
    cases h
    have hpiece := congrArg List.length (eq_of_splitCrlf hs)
    simp only [crlf, List.length_append, List.length_cons, List.length_nil] at hpiece
    have hinside : ¬ breaksAt (before.length + 1) s.chunks := by
      refine not_breaksAt_fill hempty (Nat.succ_pos _) ?_
      rw [hb, List.length_cons]
      omega
    have hoffset : (line ++ before).length + 1 - line.length = before.length + 1 := by
      rw [List.length_append]
      omega
    refine .inr ⟨?_, _, rfl, rfl⟩
    intro htoo
    rcases htoo with hlimit | ⟨-, hbreak⟩
    · rw [List.length_append] at hlimit
      exact hlong hlimit
    · rw [hoffset] at hbreak
      exact hinside hbreak
  | case6 line s b tail hb hcut hs hlong =>
    rw [bytes_of_buffer hb, ← List.append_assoc] at h
    have hle := length_le_of_splitCrlf (splitCrlf_piece_none hline hcut hs) h
    have hlength : (line ++ b :: tail).length = line.length + s.fill.buffer.length := by
      rw [List.length_append, hb]
    rw [hlength] at hle hlong
    refine .inl ⟨(isTooLong_fill hempty hle).mpr ?_, _, rfl⟩
    by_cases hlimit : maxLine < content.length
    · exact .inl hlimit
    · have hoffset : content.length + 1 - (line.length + s.fill.buffer.length) = 0 := by omega
      refine .inr ⟨by omega, ?_⟩
      rw [hoffset]
      exact breaksAt_zero _
  | case7 line s b tail hb hcut hs hlong ih =>
    rw [bytes_of_buffer hb, ← List.append_assoc] at h
    have hnone := splitCrlf_piece_none hline hcut hs
    have hle := length_le_of_splitCrlf hnone h
    have hread := ih rfl hnone h (Nat.not_lt.mp hlong)
    have hlength : (line ++ b :: tail).length = line.length + s.fill.buffer.length := by
      rw [List.length_append, hb]
    rw [hlength] at hle hread
    rw [isTooLong_fill hempty hle]
    exact hread

/-! ### Responses -/

/-- The line limit, exactly: whatever the chunks are, a line that announces no literal is read as it
is if it is shorter than the limit, and refused if it is longer. A line as long as the limit is read
if, and only if, the buffer does not end between the two bytes of its terminator. -/
theorem readResponse_limit (settings : Settings) {chunks : List Bytes} (ended : Bool)
    {content more : Bytes} (hchunks : chunks.flatten = content ++ (crlf ++ more))
    (hcontent : ¬ crlf <:+: content) (hplain : ¬ ∃ size, Announces content size) :
    ((∃ rest, readResponse settings { chunks, ended } = .complete (content ++ crlf) rest ∧
        rest.bytes = more) ↔
      content.length < settings.maxLine ∨
        content.length = settings.maxLine ∧ ¬ breaksAt (content.length + 1) chunks) ∧
    ((∃ rest, readResponse settings { chunks, ended } = .failed .lineTooLong rest) ↔
      settings.maxLine < content.length ∨
        content.length = settings.maxLine ∧ breaksAt (content.length + 1) chunks) := by
  have hsplit : splitCrlf ([] ++ ByteSource.bytes { chunks, ended }) = some (content, more) := by
    show splitCrlf chunks.flatten = _
    rw [hchunks, splitCrlf_append_terminator (splitCrlf_eq_none_iff.mpr hcontent)]
  rcases readLine_limit rfl rfl hsplit (Nat.zero_le settings.maxLine) with
    ⟨hlong, rest, hread⟩ | ⟨hfits, rest, hread, hrest⟩
  · have hrefused := readResponse_of_stopped hread (by simp)
    refine ⟨⟨?_, fun hfits => absurd hlong (not_isTooLong_iff.mpr hfits)⟩,
      fun _ => hlong, fun _ => ⟨rest, hrefused⟩⟩
    intro h
    obtain ⟨rest', hdelivered, -⟩ := h
    rw [hrefused] at hdelivered
    cases hdelivered
  · have hnone : announcedSize? (content ++ crlf) = none := by
      cases hsize : announcedSize? (content ++ crlf) with
      | none => rfl
      | some size => exact absurd ⟨size, announces_of_announcedSize? hsize⟩ hplain
    have hdelivered : readResponse settings { chunks, ended } =
        .complete (content ++ crlf) rest := by
      rw [readResponse_of_line hread, hnone]
    refine ⟨⟨fun _ => not_isTooLong_iff.mp hfits, fun _ => ⟨rest, hdelivered, hrest⟩⟩,
      ?_, fun hlong => absurd hlong hfits⟩
    intro h
    obtain ⟨rest', hrefused⟩ := h
    rw [hdelivered] at hrefused
    cases hrefused

/-- A line as long as the limit: its terminator arrives in one piece, and then cut in two. -/
theorem readResponse_limit_cut :
    (∃ rest, readResponse { maxLine := 3 } { chunks := [utf8 "ab", utf8 "c\r\n"] } =
        .complete (utf8 "abc\r\n") rest ∧ rest.bytes = []) ∧
      ∃ rest, readResponse { maxLine := 3 } { chunks := [utf8 "abc\r", utf8 "\n"] } =
        .failed .lineTooLong rest := by
  have hcontent : ¬ crlf <:+: utf8 "abc" := by decide +kernel
  have hplain : ¬ ∃ size, Announces (utf8 "abc") size := by
    intro h
    obtain ⟨size, hannounces⟩ := h
    have hnone : announcedSize? (utf8 "abc" ++ crlf) = none := by decide +kernel
    rw [hannounces.announcedSize?] at hnone
    cases hnone
  have hwhole : [utf8 "ab", utf8 "c\r\n"].flatten = utf8 "abc" ++ (crlf ++ []) := by decide +kernel
  have hcut : [utf8 "abc\r", utf8 "\n"].flatten = utf8 "abc" ++ (crlf ++ []) := by decide +kernel
  exact ⟨(readResponse_limit { maxLine := 3 } false hwhole hcontent hplain).1.mpr
      (.inr ⟨by decide +kernel, by decide +kernel⟩),
    (readResponse_limit { maxLine := 3 } false hcut hcontent hplain).2.mpr
      (.inr ⟨by decide +kernel, by decide +kernel⟩)⟩

end Framing

end ImapSearch
