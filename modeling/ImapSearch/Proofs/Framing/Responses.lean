import ImapSearch.Proofs.Framing.Later
import ImapSearch.Proofs.Framing.Segments

/-!
# ImapSearch.Proofs.Framing.Responses

**Streams of complete responses.** `IsResponse` says what a complete response within the limits
is: lines that announce literals, each with its data behind it, and a line that announces none.
Nothing else is asked of its bytes. Such a response is read as it is, whatever follows
(`readResponse_of_isResponse`); of one that has not arrived in full nothing is read, and
reading waits for the rest of it or fails because nothing will come any more
(`readResponse_of_begun`). So whatever the chunks are, draining a source gives the responses that
have arrived in full, one by one, and leaves the beginning of the next (`exists_drain_eq`).
-/

namespace ImapSearch

/-- Nothing was read: reading waits for more bytes, or it fails because nothing will arrive. -/
def Arrival.Misses {α : Type} (ended : Bool) : Arrival α → Prop
  | .complete _ _ | .crashed _ => False
  | .failed _ _ => ended
  | .waiting => ¬ ended

theorem Arrival.Misses.cases {α : Type} {ended : Bool} {arrival : Arrival α}
    (h : arrival.Misses ended) :
    (ended ∧ ∃ e rest, arrival = .failed e rest) ∨ (¬ ended ∧ arrival = .waiting) := by
  cases arrival with
  | complete | crashed => exact h.elim
  | failed e rest => exact .inl ⟨h, e, rest, rfl⟩
  | waiting => exact .inr ⟨h, rfl⟩

theorem Arrival.Misses.ne_complete {α : Type} {ended : Bool} {arrival : Arrival α}
    (h : arrival.Misses ended) (value : α) (rest : ByteSource) :
    arrival ≠ .complete value rest := by
  rintro rfl
  exact h

theorem Arrival.Misses.prepend {ended : Bool} {arrival : Arrival Bytes} (h : arrival.Misses ended)
    (front : Bytes) : (arrival.prepend front).Misses ended := by
  cases arrival <;> exact h

namespace Framing

/-! ### Complete responses -/

/-- A complete response within the limits. -/
inductive IsResponse (settings : Settings) : Bytes → Prop
  /-- The last line of a response announces no literal. -/
  | line {content : Bytes} (hcontent : ¬ crlf <:+: content)
      (hfits : content.length < settings.maxLine) (hlast : announced? content = none) :
      IsResponse settings (content ++ crlf)
  /-- Any other line is followed by the data of the literal that it announces. -/
  | literal {content data more : Bytes} (hcontent : ¬ crlf <:+: content)
      (hfits : content.length < settings.maxLine) (hsize : announced? content = some data.length)
      (hlimit : Admits settings.maxLiteral data.length) (hmore : IsResponse settings more) :
      IsResponse settings (content ++ crlf ++ data ++ more)

/-- Nothing has arrived, or the beginning of a response. -/
def Begins (settings : Settings) (bs : Bytes) : Prop :=
  bs = [] ∨ ∃ missing, missing ≠ [] ∧ IsResponse settings (bs ++ missing)

variable {settings : Settings} {s : ByteSource}

/-- A line of a response is read as it is. -/
theorem exists_readLine {content after : Bytes} (hcontent : ¬ crlf <:+: content)
    (hfits : content.length < settings.maxLine) (hs : s.bytes = content ++ (crlf ++ after)) :
    ∃ rest, readLine settings.maxLine [] s = .complete (content ++ crlf) rest ∧
      rest.bytes = after ∧ rest.ended = s.ended := by
  have hsplit : splitCrlf ([] ++ s.bytes) = some (content, after) := by
    rw [List.nil_append, hs]
    exact splitCrlf_append_terminator (splitCrlf_eq_none_iff.mpr hcontent) after
  exact readLine_of_some rfl hsplit hfits

/-- Behind a literal within the limits the response goes on. -/
theorem readResponse_of_literal {content data more : Bytes} (hcontent : ¬ crlf <:+: content)
    (hfits : content.length < settings.maxLine)
    (hsize : announcedSize? (content ++ crlf) = some data.length)
    (hlimit : Admits settings.maxLiteral data.length)
    (hs : s.bytes = content ++ (crlf ++ (data ++ more))) :
    ∃ rest, readResponse settings s =
        (readResponse settings rest).prepend (content ++ crlf ++ data) ∧
      rest.bytes = more ∧ rest.ended = s.ended := by
  obtain ⟨afterLine, hline, hafterLine, hlineEnded⟩ := exists_readLine hcontent hfits hs
  have hlong : data.length ≤ afterLine.bytes.length := by
    rw [hafterLine, List.length_append]
    exact Nat.le_add_right _ _
  obtain ⟨afterData, hdata, hafterData, hdataEnded⟩ := readExactly_of_le hlong
  rw [hafterLine, List.take_left] at hdata
  rw [hafterLine, List.drop_left] at hafterData
  refine ⟨afterData, ?_, hafterData, hdataEnded.trans hlineEnded⟩
  rw [readResponse_of_line hline, hsize]
  dsimp only
  rw [readLiteral_of_admits hlimit, hdata]

/-- A complete response is read as it is, and what follows is left. -/
theorem readResponse_of_isResponse {response : Bytes} (h : IsResponse settings response)
    {more : Bytes} (hs : s.bytes = response ++ more) :
    ∃ rest, readResponse settings s = .complete response rest ∧ rest.bytes = more ∧
      rest.ended = s.ended := by
  induction h generalizing s with
  | line hcontent hfits hlast =>
    rw [List.append_assoc] at hs
    obtain ⟨rest, hline, hbytes, hended⟩ := exists_readLine hcontent hfits hs
    refine ⟨rest, ?_, hbytes, hended⟩
    rw [readResponse_of_line hline, announcedSize?_append_crlf, hlast]
  | @literal content data others hcontent hfits hsize hlimit _ ih =>
    have hbytes : s.bytes = content ++ (crlf ++ (data ++ (others ++ more))) := by
      simpa only [List.append_assoc] using hs
    rw [← announcedSize?_append_crlf] at hsize
    obtain ⟨afterData, hread, hafterData, hdataEnded⟩ :=
      readResponse_of_literal hcontent hfits hsize hlimit hbytes
    obtain ⟨rest, hothers, hrest, hended⟩ := ih hafterData
    refine ⟨rest, ?_, hrest, hended.trans hdataEnded⟩
    rw [hread, hothers]
    rfl

/-! ### Responses that have not arrived in full -/

/-- A line without its terminator is not read. -/
theorem readLine_misses {maxLine : Nat} {line : Bytes} (hline : splitCrlf line = none)
    (h : splitCrlf (line ++ s.bytes) = none) (hfits : (line ++ s.bytes).length ≤ maxLine) :
    (readLine maxLine line s).Misses s.ended := by
  fun_induction readLine maxLine line s with
  | case1 line s hb hended => exact hended
  | case2 line s hb hwait => exact hwait
  | case3 line s b tail hb hcut =>
    obtain ⟨hcr, rfl⟩ := hcut
    rw [bytes_of_buffer hb, List.cons_append, splitCrlf_append_lf hline hcr] at h
    cases h
  | case4 line s b tail hb hcut before after hs _ | case5 line s b tail hb hcut before after hs _ =>
    rw [bytes_of_buffer hb, splitCrlf_piece_some hline hcut hs] at h
    cases h
  | case6 line s b tail hb hcut hs hlong =>
    rw [bytes_of_buffer hb, ← List.append_assoc, List.length_append] at hfits
    omega
  | case7 line s b tail hb hcut hs hlong ih =>
    rw [bytes_of_buffer hb, ← List.append_assoc] at h hfits
    rw [← s.ended_fill]
    exact ih (splitCrlf_piece_none hline hcut hs) h hfits

/-- Too few bytes are not read. -/
theorem readExactly_misses {n : Nat} (h : s.bytes.length < n) :
    (readExactly n s).Misses s.ended := by
  fun_induction readExactly n s with
  | case1 s => exact absurd h (Nat.not_lt_zero _)
  | case2 n s hn hnil hended => exact hended
  | case3 n s hn hnil hwait => exact hwait
  | case4 n s hn hnil ih =>
    rw [← s.bytes_read n, List.length_append] at h
    have hrest := ih (by omega)
    rw [s.ended_read n] at hrest
    exact hrest.prepend _

/-- Where no line is read, no response is. -/
theorem readResponse_of_misses {ended : Bool}
    (h : (readLine settings.maxLine [] s).Misses ended) :
    (readResponse settings s).Misses ended := by
  rw [readResponse_of_stopped rfl h.ne_complete]
  exact h

/-- A line that has not arrived in full has no terminator. -/
theorem splitCrlf_of_begun {content begun missing : Bytes} (hcontent : ¬ crlf <:+: content)
    (hline : content ++ crlf = begun ++ missing) (hmissing : missing ≠ []) :
    splitCrlf begun = none := by
  have hwhole : splitCrlf (begun ++ missing) = some (content, []) := by
    rw [← hline]
    exact splitCrlf_append_terminator (splitCrlf_eq_none_iff.mpr hcontent) []
  cases hs : splitCrlf begun with
  | none => rfl
  | some parts =>
    rw [splitCrlf_append_of_some hs] at hwhole
    have hafter : parts.2 ++ missing = [] := congrArg Prod.snd (Option.some.inj hwhole)
    exact absurd (List.append_eq_nil_iff.mp hafter).2 hmissing

theorem readResponse_of_begun_line {content begun missing : Bytes} (hcontent : ¬ crlf <:+: content)
    (hfits : content.length < settings.maxLine) (hline : content ++ crlf = begun ++ missing)
    (hmissing : missing ≠ []) (hs : s.bytes = begun) :
    (readResponse settings s).Misses s.ended := by
  have hlength : begun.length ≤ settings.maxLine := by
    have hlengths := congrArg List.length hline
    have hpos := List.length_pos_iff.mpr hmissing
    simp only [crlf, List.length_append, List.length_cons, List.length_nil] at hlengths
    omega
  subst hs
  exact readResponse_of_misses
    (readLine_misses rfl (splitCrlf_of_begun hcontent hline hmissing) hlength)

/-- Of two ways to cut the same bytes, the first cuts behind the second one, or it does not. -/
theorem append_cases {as bs cs ds : Bytes} (h : as ++ bs = cs ++ ds) :
    (∃ missing, missing ≠ [] ∧ as = cs ++ missing) ∨ ∃ more, cs = as ++ more ∧ bs = more ++ ds := by
  rcases List.append_eq_append_iff.mp h with hmore | ⟨missing, hcs, hds⟩
  · exact .inr hmore
  · by_cases hmissing : missing = []
    · subst hmissing
      exact .inr ⟨[], by simpa using hcs.symm, by simpa using hds.symm⟩
    · exact .inl ⟨missing, hmissing, hcs⟩

/-- Of a response that has not arrived in full nothing is read. -/
theorem readResponse_of_begun {response begun missing : Bytes} (h : IsResponse settings response)
    (hresponse : response = begun ++ missing) (hmissing : missing ≠ []) (hs : s.bytes = begun) :
    (readResponse settings s).Misses s.ended := by
  induction h generalizing s begun with
  | line hcontent hfits hlast =>
    exact readResponse_of_begun_line hcontent hfits hresponse hmissing hs
  | @literal content data others hcontent hfits hsize hlimit _ ih =>
    -- The line has not arrived in full, or it has, but not the data, or it is the others.
    rw [List.append_assoc] at hresponse
    rcases append_cases hresponse with ⟨cut, hcut, hline⟩ | ⟨afterLine, hbegun, hafter⟩
    · exact readResponse_of_begun_line hcontent hfits hline hcut hs
    · rw [hbegun, List.append_assoc] at hs
      obtain ⟨rest, hread, hrest, hended⟩ := exists_readLine hcontent hfits hs
      rw [← announcedSize?_append_crlf] at hsize
      rw [← hended]
      rcases append_cases hafter with ⟨cut, hcut, hdata⟩ | ⟨afterData, hbegun, hothers⟩
      · have hshort : rest.bytes.length < data.length := by
          have hpos := List.length_pos_iff.mpr hcut
          rw [hrest, hdata, List.length_append]
          omega
        have hmisses := readExactly_misses hshort
        rw [readResponse_of_stopped_literal hread hsize (readLiteral_of_admits hlimit)
          hmisses.ne_complete]
        exact hmisses
      · have hlong : data.length ≤ rest.bytes.length := by
          rw [hrest, hbegun, List.length_append]
          exact Nat.le_add_right _ _
        obtain ⟨rest', hdata, hrest', hended'⟩ := readExactly_of_le hlong
        rw [hrest, hbegun, List.drop_left] at hrest'
        rw [readResponse_of_line hread, hsize, ← hended']
        dsimp only
        rw [readLiteral_of_admits hlimit, hdata]
        exact (ih hothers hrest').prepend _

theorem Begins.misses (h : Begins settings s.bytes) : (readResponse settings s).Misses s.ended := by
  rcases h with hnothing | ⟨missing, hmissing, hresponse⟩
  · refine readResponse_of_misses (readLine_misses rfl ?_ ?_)
    · rw [hnothing]
      rfl
    · rw [hnothing]
      exact Nat.zero_le _
  · exact readResponse_of_begun hresponse rfl hmissing rfl

/-! ### Streams -/

/-- Draining a source gives the responses that have arrived in full. The beginning of another one is
left, and if the source has ended that is an error. -/
theorem exists_drain_eq {responses : List Bytes} {begun : Bytes}
    (hresponses : ∀ response ∈ responses, IsResponse settings response)
    (hbegun : Begins settings begun) (hs : s.bytes = responses.flatten ++ begun) :
    (s.ended ∧ ∃ e rest, drain settings s = ⟨responses, .failed e, rest⟩) ∨
      (¬ s.ended ∧ ∃ rest, drain settings s = ⟨responses, .waiting, rest⟩ ∧ rest.bytes = begun ∧
        ¬ rest.ended) := by
  induction responses generalizing s with
  | nil =>
    have hbytes : s.bytes = begun := hs
    have hmisses := Begins.misses (s := s) (hbytes ▸ hbegun)
    rw [drain_eq]
    obtain ⟨hends, e, rest, hread⟩ | ⟨hwait, hread⟩ := hmisses.cases
    · rw [hread]
      exact .inl ⟨hends, e, rest, rfl⟩
    · rw [hread]
      exact .inr ⟨hwait, s, rfl, hbytes, hwait⟩
  | cons response responses ih =>
    rw [List.forall_mem_cons] at hresponses
    rw [List.flatten_cons, List.append_assoc] at hs
    obtain ⟨rest, hread, hbytes, hended⟩ := readResponse_of_isResponse hresponses.1 hs
    rw [drain_eq, hread, ← hended]
    dsimp only
    rcases ih hresponses.2 hbytes with ⟨hends, e, rest', hdrain⟩ | ⟨hwait, rest', hdrain, hleft⟩
    · rw [hdrain]
      exact .inl ⟨hends, e, rest', rfl⟩
    · rw [hdrain]
      exact .inr ⟨hwait, rest', rfl, hleft⟩

end Framing

end ImapSearch
