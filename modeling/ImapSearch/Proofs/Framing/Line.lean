import ImapSearch.Framing

/-!
# ImapSearch.Proofs.Framing.Line

**A line, however it arrives.** A line is read in the pieces in which its bytes
arrive, and a piece can end anywhere, between the two bytes of the terminator
too. `splitCrlf` on the bytes as a whole says what the line is; the lemmas about
it say what becomes of a split when bytes are added. A line within the limit is
then read as that line (`readLine_of_some`), and where the stream ends without a
terminator reading fails (`readLine_of_none`).
-/

namespace ImapSearch

/-! ### Splitting longer bytes -/

theorem splitCrlf_append_of_some {bs content after : Bytes}
    (h : splitCrlf bs = some (content, after)) (more : Bytes) :
    splitCrlf (bs ++ more) = some (content, after ++ more) := by
  induction bs generalizing content with
  | nil => cases h
  | cons b rest ih =>
    rw [splitCrlf] at h
    rw [List.cons_append, splitCrlf]
    split at h
    next hb =>
      obtain ⟨rfl, hlf⟩ := hb
      cases rest with
      | nil => cases hlf
      | cons c rest =>
        cases h
        exact if_pos ⟨rfl, hlf⟩
    next hb =>
      simp only [Option.map_eq_some_iff, Prod.exists, Prod.mk.injEq] at h
      obtain ⟨content, after, hs, rfl, rfl⟩ := h
      have hhead : ¬ (b = Ascii.cr ∧ (rest ++ more).head? = some Ascii.lf) := by
        cases rest with
        | nil => cases hs
        | cons c rest => exact hb
      rw [if_neg hhead, ih hs]
      rfl

/-- Bytes without a terminator and bytes behind them, with no terminator across the cut. -/
theorem splitCrlf_append_of_none {bs more : Bytes} (h : splitCrlf bs = none)
    (hcut : ¬ (bs.getLast? = some Ascii.cr ∧ more.head? = some Ascii.lf)) :
    splitCrlf (bs ++ more) =
      (splitCrlf more).map fun (content, after) => (bs ++ content, after) := by
  induction bs with
  | nil => simp
  | cons b rest ih =>
    rw [splitCrlf] at h
    split at h
    next => cases h
    next hb =>
      rw [Option.map_eq_none_iff] at h
      have hhead : ¬ (b = Ascii.cr ∧ (rest ++ more).head? = some Ascii.lf) := by
        cases rest with
        | nil => simpa using hcut
        | cons c rest => exact hb
      have hrest : ¬ (rest.getLast? = some Ascii.cr ∧ more.head? = some Ascii.lf) := by
        cases rest with
        | nil => simp
        | cons c rest => simpa using hcut
      rw [List.cons_append, splitCrlf, if_neg hhead, ih h hrest, Option.map_map]
      rfl

/-- Bytes without a terminator that end in its first half, and the second half behind them. -/
theorem splitCrlf_append_lf {bs : Bytes} (h : splitCrlf bs = none)
    (hcr : bs.getLast? = some Ascii.cr) (more : Bytes) :
    splitCrlf (bs ++ Ascii.lf :: more) = some (bs.dropLast, more) := by
  obtain ⟨front, rfl⟩ := List.getLast?_eq_some_iff.mp hcr
  have hfront : splitCrlf front = none := by
    cases hs : splitCrlf front with
    | none => rfl
    | some parts =>
      rw [splitCrlf_append_of_some hs] at h
      cases h
  have hcut : ¬ (front.getLast? = some Ascii.cr ∧
      (Ascii.cr :: Ascii.lf :: more).head? = some Ascii.lf) := by
    intro hcut
    exact absurd (Option.some.inj hcut.2) (by decide)
  have hterminator : splitCrlf (Ascii.cr :: Ascii.lf :: more) = some ([], more) := rfl
  rw [List.append_assoc, List.singleton_append, splitCrlf_append_of_none hfront hcut, hterminator]
  simp

/-- Bytes without a terminator reach into the terminator by one byte at most. -/
theorem length_le_of_splitCrlf {bs more content after : Bytes} (h : splitCrlf bs = none)
    (hs : splitCrlf (bs ++ more) = some (content, after)) : bs.length ≤ content.length + 1 := by
  by_cases hcut : bs.getLast? = some Ascii.cr ∧ more.head? = some Ascii.lf
  · cases more with
    | nil => cases hcut.2
    | cons b more =>
      obtain rfl : b = Ascii.lf := Option.some.inj hcut.2
      rw [splitCrlf_append_lf h hcut.1] at hs
      cases hs
      rw [List.length_dropLast]
      omega
  · rw [splitCrlf_append_of_none h hcut] at hs
    simp only [Option.map_eq_some_iff, Prod.exists, Prod.mk.injEq] at hs
    obtain ⟨content, after, -, rfl, rfl⟩ := hs
    rw [List.length_append]
    omega

namespace Framing

/-! ### Reading a line -/

theorem bytes_of_buffer {s : ByteSource} {piece : Bytes} (h : s.fill.buffer = piece) :
    s.bytes = piece ++ s.fill.chunks.flatten := by
  rw [← ByteSource.bytes_fill, ByteSource.bytes, h]

section Piece

variable {line : Bytes} {b : UInt8} {tail : Bytes} (hline : splitCrlf line = none)
  (hcut : ¬ (line.getLast? = some Ascii.cr ∧ b = Ascii.lf))

include hline hcut

/-- What a piece ends, if no terminator lies across its beginning. -/
theorem splitCrlf_piece (more : Bytes) : splitCrlf (line ++ (b :: tail ++ more)) =
    (splitCrlf (b :: tail ++ more)).map fun (content, after) => (line ++ content, after) := by
  refine splitCrlf_append_of_none hline ?_
  intro h
  exact hcut ⟨h.1, Option.some.inj h.2⟩

theorem splitCrlf_piece_none (hs : splitCrlf (b :: tail) = none) :
    splitCrlf (line ++ b :: tail) = none := by
  have hpiece : splitCrlf (line ++ (b :: tail ++ [])) = _ := splitCrlf_piece hline hcut []
  rw [List.append_nil, hs] at hpiece
  exact hpiece

theorem splitCrlf_piece_some {before after : Bytes}
    (hs : splitCrlf (b :: tail) = some (before, after)) (more : Bytes) :
    splitCrlf (line ++ (b :: tail ++ more)) = some (line ++ before, after ++ more) := by
  rw [splitCrlf_piece hline hcut, splitCrlf_append_of_some hs]
  rfl

end Piece

/-- A line within the limit is read as a whole. -/
theorem readLine_of_some {maxLine : Nat} {line content after : Bytes} {s : ByteSource}
    (hline : splitCrlf line = none) (h : splitCrlf (line ++ s.bytes) = some (content, after))
    (hfits : content.length < maxLine) :
    ∃ rest, readLine maxLine line s = .complete (content ++ crlf) rest ∧ rest.bytes = after ∧
      rest.ended = s.ended := by
  -- No piece is left (1, 2), or a terminator lies across its beginning (3), in it (4, 5) or not.
  fun_induction readLine maxLine line s with
  | case1 line s hb hended =>
    rw [ByteSource.buffer_fill_eq_nil hb, List.append_nil, hline] at h
    cases h
  | case2 line s hb hended =>
    rw [ByteSource.buffer_fill_eq_nil hb, List.append_nil, hline] at h
    cases h
  | case3 line s b tail hb hcut =>
    obtain ⟨hcr, rfl⟩ := hcut
    rw [bytes_of_buffer hb, List.cons_append, splitCrlf_append_lf hline hcr] at h
    cases h
    obtain ⟨front, rfl⟩ := List.getLast?_eq_some_iff.mp hcr
    have hvalue : front ++ [Ascii.cr] ++ [Ascii.lf] = (front ++ [Ascii.cr]).dropLast ++ crlf := by
      simp [crlf]
    rw [hvalue]
    exact ⟨_, rfl, rfl, s.ended_fill⟩
  | case4 line s b tail hb hcut before after' hs hlong =>
    rw [bytes_of_buffer hb, splitCrlf_piece_some hline hcut hs] at h
    cases h
    rw [List.length_append] at hfits
    omega
  | case5 line s b tail hb hcut before after' hs hlong =>
    rw [bytes_of_buffer hb, splitCrlf_piece_some hline hcut hs] at h
    cases h
    exact ⟨_, rfl, rfl, s.ended_fill⟩
  | case6 line s b tail hb hcut hs hlong =>
    rw [bytes_of_buffer hb, ← List.append_assoc] at h
    -- The reader gives up on more bytes than a line within the limit can have before its end.
    have hle := length_le_of_splitCrlf (splitCrlf_piece_none hline hcut hs) h
    omega
  | case7 line s b tail hb hcut hs hlong ih =>
    rw [bytes_of_buffer hb, ← List.append_assoc] at h
    obtain ⟨rest, hread, hrest, hended⟩ := ih (splitCrlf_piece_none hline hcut hs) h
    exact ⟨rest, hread, hrest, hended.trans s.ended_fill⟩

/-- Without a terminator a line within the limit ends with the stream. -/
theorem readLine_of_none {maxLine : Nat} {line : Bytes} {s : ByteSource}
    (hline : splitCrlf line = none) (h : splitCrlf (line ++ s.bytes) = none)
    (hfits : (line ++ s.bytes).length ≤ maxLine) (hended : s.ended) :
    ∃ rest, readLine maxLine line s = .failed .connectionClosed rest := by
  fun_induction readLine maxLine line s with
  | case1 line s hb _ => exact ⟨_, rfl⟩
  | case2 line s hb hwait => exact absurd hended hwait
  | case3 line s b tail hb hcut =>
    obtain ⟨hcr, rfl⟩ := hcut
    rw [bytes_of_buffer hb, List.cons_append, splitCrlf_append_lf hline hcr] at h
    cases h
  | case4 line s b tail hb hcut before after hs _ | case5 line s b tail hb hcut before after hs _ =>
    rw [bytes_of_buffer hb, splitCrlf_piece_some hline hcut hs] at h
    cases h
  | case6 line s b tail hb hcut hs hlong =>
    rw [bytes_of_buffer hb, ← List.append_assoc, List.length_append] at hfits
    omega
  | case7 line s b tail hb hcut hs hlong ih =>
    rw [bytes_of_buffer hb, ← List.append_assoc] at h hfits
    exact ih (splitCrlf_piece_none hline hcut hs) h hfits (by simpa using hended)

end Framing

end ImapSearch
