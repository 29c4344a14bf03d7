import ImapSearch.Proofs.Framing.Chunks

/-!
# ImapSearch.Proofs.Framing.Later

**Bytes that arrive later.** A source from which nothing could be read yet is read again when
more has arrived, or when nothing will arrive any more (`ByteSource.later`). Whatever could be
read, a response or an error, is then read just the same, and what arrived stands behind the
rest (`Arrival.later`). So reading a stream bit by bit, as it arrives, gives what reading it at
once gives (`Framing.drain_later`).
-/

namespace ImapSearch

/-! ### More chunks -/

/-- What is taken from chunks does not depend on those behind. -/
theorem takeChunk_append {limit : Nat} {chunks : List Bytes} (h : (takeChunk limit chunks).1 ≠ [])
    (more : List Bytes) : takeChunk limit (chunks ++ more) =
      ((takeChunk limit chunks).1, (takeChunk limit chunks).2 ++ more) := by
  induction chunks with
  | nil => exact absurd rfl h
  | cons chunk rest ih =>
    rw [takeChunk] at h ⊢
    rw [List.cons_append, takeChunk]
    by_cases hchunk : chunk = []
    · rw [if_pos hchunk] at h ⊢
      rw [if_pos hchunk]
      exact ih h
    · rw [if_neg hchunk, if_neg hchunk]
      rfl

namespace ByteSource

variable {s : ByteSource}

/-- The stream when more chunks have arrived, and the other side may have ended it. -/
def later (more : List Bytes) (ends : Bool) (s : ByteSource) : ByteSource :=
  { s with chunks := s.chunks ++ more, ended := s.ended || ends }

theorem later_push (s : ByteSource) (chunk : Bytes) : s.later [chunk] false = s.push chunk := by
  rw [later, Bool.or_false]
  rfl

theorem later_finish (s : ByteSource) : s.later [] true = s.finish := by
  rw [later, Bool.or_true, List.append_nil]
  rfl

theorem fill_finish (s : ByteSource) : s.finish.fill = s.fill.finish := by
  unfold fill
  show (if s.buffer = [] then _ else s.finish) = _
  split <;> rfl

theorem read_finish (s : ByteSource) (n : Nat) :
    s.finish.read n = ((s.read n).1, (s.read n).2.finish) := by
  rw [read, fill_finish, read]
  show (if s.buffer = [] ∧ bufferSize ≤ n then _ else _) = _
  split <;> rfl

section Later

variable (more : List Bytes) (ends : Bool)

theorem fill_later (h : s.fill.buffer ≠ []) :
    (s.later more ends).fill = s.fill.later more ends := by
  unfold fill at h ⊢
  show (if s.buffer = [] then _ else s.later more ends) = _
  by_cases hbuffer : s.buffer = []
  · rw [if_pos hbuffer] at h
    rw [if_pos hbuffer, if_pos hbuffer, later, takeChunk_append h]
    rfl
  · rw [if_neg hbuffer, if_neg hbuffer]

theorem fill_later_of_buffer {b : UInt8} {tail : Bytes} (h : s.fill.buffer = b :: tail) :
    (s.later more ends).fill = s.fill.later more ends ∧
      (s.later more ends).fill.buffer = b :: tail := by
  have hne : s.fill.buffer ≠ [] := by
    rw [h]
    exact List.cons_ne_nil b tail
  refine ⟨fill_later more ends hne, ?_⟩
  rw [fill_later more ends hne]
  exact h

theorem read_later {n : Nat} (h : (s.read n).1 ≠ []) :
    (s.later more ends).read n = ((s.read n).1, (s.read n).2.later more ends) := by
  unfold read at h ⊢
  show (if s.buffer = [] ∧ bufferSize ≤ n then _ else _) = _
  by_cases hdirect : s.buffer = [] ∧ bufferSize ≤ n
  · rw [if_pos hdirect] at h
    rw [if_pos hdirect, if_pos hdirect, later, takeChunk_append h]
    rfl
  · rw [if_neg hdirect] at h
    have hfill : s.fill.buffer ≠ [] := by
      intro hempty
      rw [hempty, List.take_nil] at h
      exact h rfl
    rw [if_neg hdirect, if_neg hdirect, fill_later more ends hfill]
    rfl

end Later

end ByteSource

namespace Arrival

variable {α : Type} {ended : Bool}

/-- The same arrival from a source at which more has arrived. -/
def later (more : List Bytes) (ends : Bool) : Arrival α → Arrival α
  | .complete value rest => .complete value (rest.later more ends)
  | .failed e rest => .failed e (rest.later more ends)
  | .crashed rest => .crashed (rest.later more ends)
  | .waiting => .waiting

theorem later_prepend (more : List Bytes) (ends : Bool) (front : Bytes) (arrival : Arrival Bytes) :
    (arrival.prepend front).later more ends = (arrival.later more ends).prepend front := by
  cases arrival <;> rfl

theorem later_ne_complete {more : List Bytes} {ends : Bool} {arrival : Arrival α}
    (h : ∀ value rest, arrival ≠ .complete value rest) (value : α) (rest : ByteSource) :
    arrival.later more ends ≠ .complete value rest := by
  cases arrival with
  | complete value rest => exact absurd rfl (h value rest)
  | failed | crashed | waiting => simp [later]

/-- The source stays open or ended as it was, and only an open one is waited for. -/
def Keeps (ended : Bool) : Arrival α → Prop
  | .complete _ rest | .failed _ rest | .crashed rest => rest.ended = ended
  | .waiting => ended = false

theorem Keeps.prepend {arrival : Arrival Bytes} (h : arrival.Keeps ended) (front : Bytes) :
    (arrival.prepend front).Keeps ended := by
  cases arrival <;> exact h

end Arrival

namespace Framing

/-! ### Lines -/

/-- What is done with a piece of a line. -/
theorem readLine_of_buffer {maxLine : Nat} {line : Bytes} {s : ByteSource} {b : UInt8}
    {tail : Bytes} (h : s.fill.buffer = b :: tail) : readLine maxLine line s =
      if line.getLast? = some Ascii.cr ∧ b = Ascii.lf then
        .complete (line ++ [Ascii.lf]) { s.fill with buffer := tail }
      else
        match splitCrlf (b :: tail) with
        | some (before, after) =>
          if maxLine < line.length + before.length then .failed .lineTooLong s.fill
          else .complete (line ++ before ++ crlf) { s.fill with buffer := after }
        | none =>
          if maxLine < (line ++ b :: tail).length then
            .failed .lineTooLong { s.fill with buffer := [] }
          else readLine maxLine (line ++ b :: tail) { s.fill with buffer := [] } := by
  rw [readLine]
  split
  next hempty =>
    rw [h] at hempty
    cases hempty
  next hpiece =>
    rw [h] at hpiece
    cases hpiece
    rfl

/-- Where nothing will arrive, no line ends. -/
theorem readLine_of_empty {maxLine : Nat} {line : Bytes} {s : ByteSource}
    (h : s.fill.buffer = []) (hended : s.ended) :
    readLine maxLine line s = .failed .connectionClosed s.fill := by
  rw [readLine]
  split
  next => exact if_pos hended
  next hpiece =>
    rw [h] at hpiece
    cases hpiece

theorem readLine_keeps {maxLine : Nat} {line : Bytes} {s : ByteSource} {arrival : Arrival Bytes}
    (h : readLine maxLine line s = arrival) : arrival.Keeps s.ended := by
  subst h
  fun_induction readLine maxLine line s with
  | case2 line s hempty hwait => exact eq_false_of_ne_true hwait
  | case7 line s b tail hb hcut hs hlong ih => rwa [s.ended_fill] at ih
  | _ => exact ByteSource.ended_fill _

section Later

variable (more : List Bytes) (ends : Bool)

theorem readLine_later {maxLine : Nat} {line : Bytes} {s : ByteSource} {arrival : Arrival Bytes}
    (hopen : ¬ s.ended) (h : readLine maxLine line s = arrival) (hready : arrival ≠ .waiting) :
    readLine maxLine line (s.later more ends) = arrival.later more ends := by
  subst h
  fun_induction readLine maxLine line s with
  | case1 line s hempty hended => exact absurd hended hopen
  | case2 line s hempty hwait => exact absurd rfl hready
  | case3 line s b tail hb hcut =>
    obtain ⟨hfill, hpiece⟩ := ByteSource.fill_later_of_buffer more ends hb
    rw [readLine_of_buffer hpiece, if_pos hcut, hfill]
    rfl
  | case4 line s b tail hb hcut before after hs hlong =>
    obtain ⟨hfill, hpiece⟩ := ByteSource.fill_later_of_buffer more ends hb
    rw [readLine_of_buffer hpiece, if_neg hcut, hs, hfill]
    exact if_pos hlong
  | case5 line s b tail hb hcut before after hs hlong =>
    obtain ⟨hfill, hpiece⟩ := ByteSource.fill_later_of_buffer more ends hb
    rw [readLine_of_buffer hpiece, if_neg hcut, hs, hfill]
    exact if_neg hlong
  | case6 line s b tail hb hcut hs hlong =>
    obtain ⟨hfill, hpiece⟩ := ByteSource.fill_later_of_buffer more ends hb
    rw [readLine_of_buffer hpiece, if_neg hcut, hs, hfill]
    exact if_pos hlong
  | case7 line s b tail hb hcut hs hlong ih =>
    obtain ⟨hfill, hpiece⟩ := ByteSource.fill_later_of_buffer more ends hb
    rw [readLine_of_buffer hpiece, if_neg hcut, hs, hfill, ← ih (by simpa using hopen) hready]
    exact if_neg hlong

end Later

/-- A line that is waited for fails when the stream ends. -/
theorem readLine_finish {maxLine : Nat} {line : Bytes} {s : ByteSource}
    (h : readLine maxLine line s = .waiting) :
    ∃ e rest, readLine maxLine line s.finish = .failed e rest := by
  fun_induction readLine maxLine line s with
  | case2 line s hempty hwait =>
    have hnone : s.finish.fill.buffer = [] := by
      rw [s.fill_finish]
      exact hempty
    exact ⟨_, _, readLine_of_empty hnone rfl⟩
  | case7 line s b tail hb hcut hs hlong ih =>
    have hpiece : s.finish.fill.buffer = b :: tail := by
      rw [s.fill_finish]
      exact hb
    rw [readLine_of_buffer hpiece, if_neg hcut, hs, s.fill_finish]
    dsimp only
    rw [if_neg hlong]
    exact ih h
  | _ => cases h

/-! ### Literals -/

theorem readExactly_keeps {n : Nat} {s : ByteSource} {arrival : Arrival Bytes}
    (h : readExactly n s = arrival) : arrival.Keeps s.ended := by
  subst h
  fun_induction readExactly n s with
  | case1 s => rfl
  | case2 n s hn hnil hended => exact s.ended_read n
  | case3 n s hn hnil hwait => exact eq_false_of_ne_true hwait
  | case4 n s hn hnil ih =>
    rw [s.ended_read n] at ih
    exact ih.prepend _

theorem readExactly_later {n : Nat} {s : ByteSource} {arrival : Arrival Bytes} (hopen : ¬ s.ended)
    (h : readExactly n s = arrival) (hready : arrival ≠ .waiting) (more : List Bytes)
    (ends : Bool) : readExactly n (s.later more ends) = arrival.later more ends := by
  subst h
  fun_induction readExactly n s with
  | case1 s =>
    rw [readExactly]
    exact if_pos rfl
  | case2 n s hn hnil hended => exact absurd hended hopen
  | case3 n s hn hnil hwait => exact absurd rfl hready
  | case4 n s hn hnil ih =>
    rw [ne_eq, Arrival.prepend_eq_waiting_iff] at hready
    rw [readExactly, if_neg hn, ByteSource.read_later more ends hnil, if_neg hnil,
      ih (by simpa using hopen) hready, Arrival.later_prepend]

/-- The data that are waited for fail to arrive when the stream ends. -/
theorem readExactly_finish {n : Nat} {s : ByteSource} (h : readExactly n s = .waiting) :
    ∃ e rest, readExactly n s.finish = .failed e rest := by
  fun_induction readExactly n s with
  | case1 | case2 => cases h
  | case3 n s hn hnil hwait =>
    rw [readExactly, if_neg hn, s.read_finish, if_pos hnil]
    exact ⟨_, _, if_pos rfl⟩
  | case4 n s hn hnil ih =>
    obtain ⟨e, rest, hread⟩ := ih (Arrival.prepend_eq_waiting_iff.mp h)
    rw [readExactly, if_neg hn, s.read_finish, if_neg hnil]
    exact ⟨e, rest, Arrival.prepend_eq_failed_iff.mpr hread⟩

section Literal

variable {maxLiteral n : Nat} {s : ByteSource} {arrival : Arrival Bytes}

theorem readLiteral_keeps (h : readLiteral maxLiteral n s = arrival) : arrival.Keeps s.ended := by
  subst h
  unfold readLiteral
  split
  · rfl
  · split
    · rfl
    · exact readExactly_keeps rfl

theorem readLiteral_later (hopen : ¬ s.ended) (h : readLiteral maxLiteral n s = arrival)
    (hready : arrival ≠ .waiting) (more : List Bytes) (ends : Bool) :
    readLiteral maxLiteral n (s.later more ends) = arrival.later more ends := by
  subst h
  unfold readLiteral at hready ⊢
  split at hready
  next hlimit =>
    rw [if_pos hlimit, if_pos hlimit]
    rfl
  next hlimit =>
    rw [if_neg hlimit, if_neg hlimit]
    split at hready
    next hroom =>
      rw [if_pos hroom, if_pos hroom]
      rfl
    next hroom =>
      rw [if_neg hroom, if_neg hroom]
      exact readExactly_later hopen rfl hready more ends

theorem readLiteral_finish (h : readLiteral maxLiteral n s = .waiting) :
    ∃ e rest, readLiteral maxLiteral n s.finish = .failed e rest := by
  unfold readLiteral at h ⊢
  split at h
  next => cases h
  next hlimit =>
    rw [if_neg hlimit]
    split at h
    next => cases h
    next hroom =>
      rw [if_neg hroom]
      exact readExactly_finish h

end Literal

/-! ### Responses -/

theorem readResponse_keeps {settings : Settings} {s : ByteSource} {arrival : Arrival Bytes}
    (h : readResponse settings s = arrival) : arrival.Keeps s.ended := by
  subst h
  fun_induction readResponse settings s with
  | case1 s line afterLine hl hsize => exact readLine_keeps hl
  | case2 s line afterLine hl size hsize data afterData hd ih =>
    have hline : afterLine.ended = s.ended := readLine_keeps hl
    have hdata : afterData.ended = afterLine.ended := readLiteral_keeps hd
    rw [hdata, hline] at ih
    exact ih.prepend _
  | case3 s line afterLine hl size hsize hstopped =>
    have hline : afterLine.ended = s.ended := readLine_keeps hl
    rw [← hline]
    exact readLiteral_keeps rfl
  | case4 s hstopped => exact readLine_keeps rfl

/-- What could be read is read just the same when more has arrived. -/
theorem readResponse_later {settings : Settings} {s : ByteSource} {arrival : Arrival Bytes}
    (hopen : ¬ s.ended) (h : readResponse settings s = arrival) (hready : arrival ≠ .waiting)
    (more : List Bytes) (ends : Bool) :
    readResponse settings (s.later more ends) = arrival.later more ends := by
  subst h
  fun_induction readResponse settings s with
  | case1 s line afterLine hl hsize =>
    rw [readResponse_of_line (readLine_later more ends hopen hl (by simp)), hsize]
    rfl
  | case2 s line afterLine hl size hsize data afterData hd ih =>
    have hline : afterLine.ended = s.ended := readLine_keeps hl
    have hrest : afterData.ended = afterLine.ended := readLiteral_keeps hd
    have hdata := readLiteral_later (hline ▸ hopen) hd (by simp) more ends
    rw [ne_eq, Arrival.prepend_eq_waiting_iff] at hready
    rw [Arrival.later_prepend, ← ih (hrest ▸ hline ▸ hopen) hready,
      readResponse_of_line (readLine_later more ends hopen hl (by simp)), hsize]
    dsimp only
    rw [hdata]
    rfl
  | case3 s line afterLine hl size hsize hstopped =>
    have hline : afterLine.ended = s.ended := readLine_keeps hl
    exact readResponse_of_stopped_literal (readLine_later more ends hopen hl (by simp)) hsize
      (readLiteral_later (hline ▸ hopen) rfl hready more ends) (Arrival.later_ne_complete hstopped)
  | case4 s hstopped =>
    exact readResponse_of_stopped (readLine_later more ends hopen rfl hready)
      (Arrival.later_ne_complete hstopped)

/-- A response that is waited for fails to arrive when the stream ends. -/
theorem readResponse_finish {settings : Settings} {s : ByteSource}
    (h : readResponse settings s = .waiting) :
    ∃ e rest, readResponse settings s.finish = .failed e rest := by
  have hopen : ¬ s.ended := by
    have hkeeps : s.ended = false := readResponse_keeps h
    exact ne_true_of_eq_false hkeeps
  fun_induction readResponse settings s with
  | case1 => cases h
  | case2 s line afterLine hl size hsize data afterData hd ih =>
    have hline : afterLine.ended = s.ended := readLine_keeps hl
    have hrest : afterData.ended = afterLine.ended := readLiteral_keeps hd
    obtain ⟨e, rest, hread⟩ := ih (Arrival.prepend_eq_waiting_iff.mp h) (hrest ▸ hline ▸ hopen)
    have hfirst := readLine_later [] true hopen hl (by simp)
    have hdata := readLiteral_later (hline ▸ hopen) hd (by simp) [] true
    rw [ByteSource.later_finish, Arrival.later, ByteSource.later_finish] at hfirst hdata
    refine ⟨e, rest, ?_⟩
    rw [readResponse_of_line hfirst, hsize]
    dsimp only
    rw [hdata]
    exact Arrival.prepend_eq_failed_iff.mpr hread
  | case3 s line afterLine hl size hsize hstopped =>
    obtain ⟨e, rest, hdata⟩ := readLiteral_finish h
    have hfirst := readLine_later [] true hopen hl (by simp)
    rw [ByteSource.later_finish, Arrival.later, ByteSource.later_finish] at hfirst
    exact ⟨e, rest, readResponse_of_stopped_literal hfirst hsize hdata (by simp)⟩
  | case4 s hstopped =>
    obtain ⟨e, rest, hline⟩ := readLine_finish h
    exact ⟨e, rest, readResponse_of_stopped hline (by simp)⟩

/-! ### Limits -/

/-- The error of a line or of a literal above its limit. -/
def IsLimit (settings : Settings) : Error → Prop
  | .lineTooLong => True
  | .literalTooLarge size limit => limit = settings.maxLiteral ∧ limit < size
  | _ => False

theorem eq_lineTooLong_of_readLine {maxLine : Nat} {line : Bytes} {s rest : ByteSource} {e : Error}
    (hopen : ¬ s.ended) (h : readLine maxLine line s = .failed e rest) : e = .lineTooLong := by
  fun_induction readLine maxLine line s with
  | case1 line s hempty hended => exact absurd hended hopen
  | case7 line s b tail hb hcut hs hlong ih => exact ih (by simpa using hopen) h
  | _ => cases h <;> rfl

theorem ended_of_readExactly {n : Nat} {s rest : ByteSource} {e : Error}
    (h : readExactly n s = .failed e rest) : s.ended := by
  fun_induction readExactly n s with
  | case2 n s hn hnil hended => exact hended
  | case4 n s hn hnil ih => simpa using ih (Arrival.prepend_eq_failed_iff.mp h)
  | _ => cases h

theorem isLimit_of_readLiteral {settings : Settings} {n : Nat} {s rest : ByteSource} {e : Error}
    (hopen : ¬ s.ended) (h : readLiteral settings.maxLiteral n s = .failed e rest) :
    IsLimit settings e := by
  unfold readLiteral at h
  split at h
  next hlarge =>
    cases h
    exact ⟨rfl, hlarge⟩
  next =>
    split at h
    next => cases h
    next => exact absurd (ended_of_readExactly h) hopen

/-- While more can arrive, reading fails only at a limit. -/
theorem isLimit_of_readResponse {settings : Settings} {s rest : ByteSource} {e : Error}
    (hopen : ¬ s.ended) (h : readResponse settings s = .failed e rest) : IsLimit settings e := by
  fun_induction readResponse settings s with
  | case1 => cases h
  | case2 s line afterLine hl size hsize data afterData hd ih =>
    have hline : afterLine.ended = s.ended := readLine_keeps hl
    have hdata : afterData.ended = afterLine.ended := readLiteral_keeps hd
    exact ih (hdata ▸ hline ▸ hopen) (Arrival.prepend_eq_failed_iff.mp h)
  | case3 s line afterLine hl size hsize hstopped =>
    have hline : afterLine.ended = s.ended := readLine_keeps hl
    exact isLimit_of_readLiteral (hline ▸ hopen) h
  | case4 s hstopped =>
    rw [eq_lineTooLong_of_readLine hopen h]
    trivial

/-! ### Runs -/

/-- What a source delivers when more has arrived: what is read from it and from the bytes that were
left in front of it, if more had to arrive, and otherwise no more than before. -/
def Drained.later (settings : Settings) (more : List Bytes) (ends : Bool) (d : Drained) : Drained :=
  match d.stop with
  | .waiting =>
    let others := drain settings (d.rest.later more ends)
    { others with responses := d.responses ++ others.responses }
  | .failed _ | .crashed => { d with rest := d.rest.later more ends }

section Drain

variable {settings : Settings} {s : ByteSource}

/-- Where nothing has arrived there is nothing to read. -/
theorem drain_empty : drain settings {} = ⟨[], .waiting, {}⟩ := by
  have hline : readLine settings.maxLine [] {} = .waiting := by
    rw [readLine]
    rfl
  rw [drain_eq, readResponse_of_stopped hline (by simp)]

theorem Drained.later_cons (more : List Bytes) (ends : Bool) (d : Drained) (response : Bytes) :
    Drained.later settings more ends { d with responses := response :: d.responses } =
      { d.later settings more ends with
        responses := response :: (d.later settings more ends).responses } := by
  obtain ⟨responses, stop, rest⟩ := d
  cases stop <;> rfl

/-- Reading a stream bit by bit gives what reading it at once gives. -/
theorem drain_later (hopen : ¬ s.ended) (more : List Bytes) (ends : Bool) :
    drain settings (s.later more ends) = (drain settings s).later settings more ends := by
  fun_induction drain settings s with
  | case1 s response rest h others ih =>
    have hrest : rest.ended = s.ended := readResponse_keeps h
    rw [drain_eq, readResponse_later hopen h (by simp) more ends]
    dsimp only [Arrival.later]
    rw [ih (hrest ▸ hopen)]
    exact (others.later_cons more ends response).symm
  | case2 s e rest h | case3 s rest h =>
    rw [drain_eq, readResponse_later hopen h (by simp) more ends]
    rfl
  | case4 s h => rfl

/-- Where more has to arrive, nothing can be read, and reading fails if the stream ends. -/
theorem drain_finish (h : (drain settings s).stop = .waiting) :
    ∃ e rest, drain settings (drain settings s).rest.finish = ⟨[], .failed e, rest⟩ := by
  fun_induction drain settings s with
  | case1 s response rest hread others ih => exact ih h
  | case2 | case3 => cases h
  | case4 s hread =>
    obtain ⟨e, rest, hfails⟩ := readResponse_finish hread
    exact ⟨e, rest, by rw [drain_eq, hfails]⟩

theorem isLimit_of_drain (hopen : ¬ s.ended) {e : Error} (h : (drain settings s).error = some e) :
    IsLimit settings e := by
  fun_induction drain settings s with
  | case1 s response rest hread others ih =>
    have hrest : rest.ended = s.ended := readResponse_keeps hread
    exact ih (hrest ▸ hopen) h
  | case2 s e' rest hread =>
    cases h
    exact isLimit_of_readResponse hopen hread
  | case3 | case4 => cases h

end Drain

end Framing

end ImapSearch
