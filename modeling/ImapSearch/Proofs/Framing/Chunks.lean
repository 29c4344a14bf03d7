import ImapSearch.Proofs.Framing.Line
import ImapSearch.Proofs.Framing.Split

/-!
# ImapSearch.Proofs.Framing.Chunks

**Framing does not depend on how bytes arrive.** Reading from a source takes
lines and literals from a buffer that takes in a part of one chunk at a time. For
a stream whose lines keep within the limit, the responses that are read, and the
error that ends reading, are those of `split`, which knows nothing of chunks.

There is one exception, and it does not depend on the chunks either. Where the limit
on literals is larger than any buffer can be, a literal can be announced for which no
buffer can be made (`Frames.HasRoom`). There the reader breaks down, and gives neither
the error of the stream nor the responses behind that place
(`Framing.readTimes_ofChunks`).
-/

namespace ImapSearch.Framing

/-! ### Literals -/

theorem readExactly_of_le {n : Nat} {s : ByteSource} (h : n ≤ s.bytes.length) :
    ∃ rest, readExactly n s = .complete (s.bytes.take n) rest ∧ rest.bytes = s.bytes.drop n ∧
      rest.ended = s.ended := by
  fun_induction readExactly n s with
  | case1 s => exact ⟨s, by simp⟩
  | case2 n s hn hnil hended | case3 n s hn hnil hended =>
    rw [ByteSource.read_eq_nil (Nat.pos_of_ne_zero hn) hnil] at h
    exact absurd (Nat.le_zero.mp h) hn
  | case4 n s hn hnil ih =>
    rw [← s.bytes_read n, List.length_append] at h
    obtain ⟨rest, hread, hbytes, hended⟩ := ih (by omega)
    refine ⟨rest, ?_, ?_, hended.trans (s.ended_read n)⟩
    · rw [hread, ← s.bytes_read n, List.take_append, List.take_of_length_le (s.length_read_le n)]
      rfl
    · rw [← s.bytes_read n, List.drop_append, List.drop_of_length_le (s.length_read_le n)]
      exact hbytes

theorem readExactly_of_lt {n : Nat} {s : ByteSource} (h : s.bytes.length < n) (hended : s.ended) :
    ∃ rest, readExactly n s = .failed .streamTruncated rest := by
  fun_induction readExactly n s with
  | case1 s => exact absurd h (Nat.not_lt_zero _)
  | case2 n s hn hnil _ => exact ⟨_, rfl⟩
  | case3 n s hn hnil hwait => exact absurd hended hwait
  | case4 n s hn hnil ih =>
    rw [← s.bytes_read n, List.length_append] at h
    obtain ⟨rest, hread⟩ := ih (by omega) (by simpa using hended)
    exact ⟨rest, by rw [hread]; rfl⟩

/-- A literal of `n` bytes is within the limit, and a buffer can hold it. -/
structure Admits (maxLiteral n : Nat) : Prop where
  le_limit : n ≤ maxLiteral
  lt_bound : n < allocationBound

section Literal

variable {maxLiteral n : Nat} {s : ByteSource}

theorem readLiteral_of_large (h : maxLiteral < n) :
    readLiteral maxLiteral n s = .failed (.literalTooLarge n maxLiteral) s := if_pos h

theorem readLiteral_of_crash (hlimit : n ≤ maxLiteral) (hroom : allocationBound ≤ n) :
    readLiteral maxLiteral n s = .crashed s :=
  (if_neg (Nat.not_lt.mpr hlimit)).trans (if_pos hroom)

theorem readLiteral_of_admits (h : Admits maxLiteral n) :
    readLiteral maxLiteral n s = readExactly n s :=
  (if_neg (Nat.not_lt.mpr h.le_limit)).trans (if_neg (Nat.not_le.mpr h.lt_bound))

end Literal

/-! ### Lines within the limit -/

/-- Every line keeps within the limit, and so does the line in which the stream ends. -/
structure Frames.FitIn (f : Frames) (maxLine : Nat) : Prop where
  lines : ∀ line ∈ f.lines, line.length < maxLine
  tail : f.tail.length ≤ maxLine

/-- Of the literals within the limit that the lines announce, none is too large for a buffer. -/
def Frames.HasRoom (f : Frames) (maxLiteral : Nat) : Prop :=
  ∀ line ∈ f.lines, ∀ size ∈ announced? line, size ≤ maxLiteral → size < allocationBound

/-- The first line is read as it is taken, and where there is none reading fails. -/
theorem readLine_split {maxLiteral maxLine : Nat} {begun : Bytes} {s : ByteSource}
    (hended : s.ended) (hfits : (split maxLiteral begun s.bytes).FitIn maxLine) :
    (splitCrlf s.bytes = none ∧ ∃ rest, readLine maxLine [] s = .failed .connectionClosed rest) ∨
      ∃ content rest, splitCrlf s.bytes = some (content, rest.bytes) ∧
        readLine maxLine [] s = .complete (content ++ crlf) rest ∧ rest.ended := by
  cases hs : splitCrlf s.bytes with
  | none =>
    have htail := hfits.tail
    rw [split_of_none hs] at htail
    have hnone : splitCrlf ([] ++ s.bytes) = none := hs
    exact .inl ⟨rfl, readLine_of_none rfl hnone htail hended⟩
  | some parts =>
    obtain ⟨content, after⟩ := parts
    have hcontent := hfits.lines content (mem_lines_split hs)
    have hsome : splitCrlf ([] ++ s.bytes) = some (content, after) := hs
    obtain ⟨rest, hread, rfl, hrest⟩ := readLine_of_some rfl hsome hcontent
    exact .inr ⟨content, rest, rfl, hread, hrest.trans hended⟩

/-! ### Responses -/

/-- How reading one response compares with taking the stream apart: it is the first response, and
the others are those of the rest; or there is none, and reading fails for the same reason; or the
reader breaks down, and there is no room for a literal. -/
def Agrees (maxLiteral maxLine : Nat) (begun : Bytes) (f : Frames) : Arrival Bytes → Prop
  | .complete value rest =>
    rest.ended ∧ (split maxLiteral [] rest.bytes).FitIn maxLine ∧
      f.responses = (begun ++ value) :: (split maxLiteral [] rest.bytes).responses ∧
      f.error = (split maxLiteral [] rest.bytes).error ∧
      (f.HasRoom maxLiteral ↔ (split maxLiteral [] rest.bytes).HasRoom maxLiteral)
  | .failed e _ => f.responses = [] ∧ f.error = e ∧ f.HasRoom maxLiteral
  | .crashed _ => ¬ f.HasRoom maxLiteral
  | .waiting => False

section Literals

variable {maxLiteral maxLine size : Nat} {f : Frames} {content : Bytes}

/-- A line that announces a literal asks for room for its data. -/
theorem Frames.hasRoom_cons (hsize : announced? content = some size) :
    Frames.HasRoom { f with lines := content :: f.lines } maxLiteral ↔
      (size ≤ maxLiteral → size < allocationBound) ∧ f.HasRoom maxLiteral := by
  unfold HasRoom
  rw [List.forall_mem_cons, hsize]
  simp

/-- What is read behind a literal agrees with the stream, if there was room for the literal. -/
theorem Agrees.prepend {begun front before : Bytes} {arrival : Arrival Bytes}
    (h : Agrees maxLiteral maxLine before f arrival) (hbefore : before = begun ++ front)
    (hsize : announced? content = some size) (hroom : size < allocationBound) :
    Agrees maxLiteral maxLine begun { f with lines := content :: f.lines }
      (arrival.prepend front) := by
  have hsame : Frames.HasRoom { f with lines := content :: f.lines } maxLiteral ↔
      f.HasRoom maxLiteral :=
    (Frames.hasRoom_cons hsize).trans (and_iff_right fun _ => hroom)
  subst hbefore
  cases arrival with
  | complete value rest =>
    obtain ⟨hended, hfits, hresponses, herror, hrest⟩ := h
    exact ⟨hended, hfits, by simpa [List.append_assoc] using hresponses, herror,
      hsame.trans hrest⟩
  | failed e rest => exact ⟨h.1, h.2.1, hsame.mpr h.2.2⟩
  | crashed rest => exact mt hsame.mp h
  | waiting => exact h

end Literals

/-- Where no line is read, no response is. -/
theorem readResponse_of_stopped {settings : Settings} {s : ByteSource} {arrival : Arrival Bytes}
    (h : readLine settings.maxLine [] s = arrival)
    (hstopped : ∀ line rest, arrival ≠ .complete line rest) :
    readResponse settings s = arrival := by
  rw [readResponse]
  split
  next hl => exact absurd (h.symm.trans hl) (hstopped _ _)
  next => exact h

/-- What is done with a line. -/
theorem readResponse_of_line {settings : Settings} {s afterLine : ByteSource} {line : Bytes}
    (h : readLine settings.maxLine [] s = .complete line afterLine) :
    readResponse settings s =
      match announcedSize? line with
      | none => .complete line afterLine
      | some size =>
        match readLiteral settings.maxLiteral size afterLine with
        | .complete data afterData => (readResponse settings afterData).prepend (line ++ data)
        | stopped => stopped := by
  rw [readResponse]
  split
  next hl =>
    rw [h] at hl
    cases hl
    cases announcedSize? line with
    | none => rfl
    | some size =>
      dsimp only
      split
      next hd => rw [hd]
      next hd =>
        cases hdata : readLiteral settings.maxLiteral size afterLine with
        | complete data afterData => exact absurd hdata (hd _ _)
        | failed | crashed | waiting => rfl
  next hstopped => exact absurd h (hstopped _ _)

/-- Where the data of a literal are not read, no response is. -/
theorem readResponse_of_stopped_literal {settings : Settings} {s afterLine : ByteSource}
    {line : Bytes} {size : Nat} {arrival : Arrival Bytes}
    (hline : readLine settings.maxLine [] s = .complete line afterLine)
    (hsize : announcedSize? line = some size)
    (h : readLiteral settings.maxLiteral size afterLine = arrival)
    (hstopped : ∀ data rest, arrival ≠ .complete data rest) :
    readResponse settings s = arrival := by
  rw [readResponse_of_line hline, hsize]
  dsimp only
  rw [h]
  cases arrival with
  | complete data rest => exact absurd rfl (hstopped data rest)
  | failed | crashed | waiting => rfl

theorem readResponse_agrees {settings : Settings} {begun : Bytes} {s : ByteSource}
    (hended : s.ended)
    (hfits : (split settings.maxLiteral begun s.bytes).FitIn settings.maxLine) :
    Agrees settings.maxLiteral settings.maxLine begun (split settings.maxLiteral begun s.bytes)
      (readResponse settings s) := by
  -- What follows a literal is read from fewer bytes than the line that announces it.
  induction hlength : s.bytes.length using Nat.strongRecOn generalizing s begun with
  | _ length ih =>
    rcases readLine_split hended hfits with ⟨hs, rest, hread⟩ | ⟨content, rest, hs, hread, hrest⟩
    · rw [split_of_none hs, readResponse_of_stopped hread (by simp)]
      exact ⟨rfl, rfl, by simp [Frames.HasRoom]⟩
    · rw [readResponse_of_line hread, announcedSize?_append_crlf]
      cases hsize : announced? content with
      | none =>
        rw [split_of_line hs hsize] at hfits ⊢
        refine ⟨hrest, ⟨?_, hfits.tail⟩, by rw [List.append_assoc], rfl, ?_⟩
        · exact fun line hline => hfits.lines line (List.mem_cons_of_mem _ hline)
        · simp [Frames.HasRoom, hsize]
      | some size =>
        dsimp only
        by_cases hlarge : settings.maxLiteral < size
        · rw [split_of_large hs hsize hlarge, readLiteral_of_large hlarge]
          exact ⟨rfl, rfl, by simpa [Frames.HasRoom, hsize] using fun hle => by omega⟩
        have hlimit := Nat.not_lt.mp hlarge
        by_cases hbound : allocationBound ≤ size
        · rw [readLiteral_of_crash hlimit hbound]
          intro hroom
          exact Nat.not_lt.mpr hbound (hroom content (mem_lines_split hs) size hsize hlimit)
        have hroom := Nat.not_le.mp hbound
        rw [readLiteral_of_admits ⟨hlimit, hroom⟩]
        by_cases hshort : rest.bytes.length < size
        · obtain ⟨rest', hdata⟩ := readExactly_of_lt hshort hrest
          rw [split_of_truncated hs hsize hlarge hshort, hdata]
          exact ⟨rfl, rfl, by simpa [Frames.HasRoom, hsize] using fun _ => hroom⟩
        · obtain ⟨afterData, hdata, hbytes, hafter⟩ := readExactly_of_le (Nat.not_lt.mp hshort)
          rw [split_of_literal hs hsize hlarge hshort, ← hbytes] at hfits ⊢
          have hshorter : afterData.bytes.length < length := by
            have hline := congrArg List.length (eq_of_splitCrlf hs)
            rw [hbytes, List.length_drop]
            simp only [crlf, List.length_append, List.length_cons] at hline
            omega
          have hagrees := ih _ hshorter (hafter.trans hrest)
            ⟨fun line hline => hfits.lines line (List.mem_cons_of_mem _ hline), hfits.tail⟩ rfl
          rw [hdata]
          exact hagrees.prepend (by simp only [List.append_assoc]) hsize hroom

/-! ### Where the reader breaks down -/

theorem readLine_ne_crashed {maxLine : Nat} {line : Bytes} {s rest : ByteSource} :
    readLine maxLine line s ≠ .crashed rest := by
  fun_induction readLine maxLine line s with
  | case7 line s b tail hb hcut hs hlong ih => exact ih
  | _ => simp

theorem readExactly_ne_crashed {n : Nat} {s rest : ByteSource} :
    readExactly n s ≠ .crashed rest := by
  fun_induction readExactly n s with
  | case4 n s hn hnil ih => exact mt Arrival.prepend_eq_crashed_iff.mp ih
  | _ => simp

/-- A line that announces a literal within the limit for which no buffer is large enough. -/
structure Overtaxes (settings : Settings) (line : Bytes) (size : Nat) : Prop where
  announced : announcedSize? line = some size
  bound_le : allocationBound ≤ size
  le_limit : size ≤ settings.maxLiteral

/-- The reader breaks down behind a line that announces what no buffer can hold. -/
theorem exists_overtaxes {settings : Settings} {s rest : ByteSource}
    (h : readResponse settings s = .crashed rest) :
    ∃ begun line size, s.bytes = begun ++ line ++ rest.bytes ∧ Overtaxes settings line size := by
  fun_induction readResponse settings s with
  | case1 => cases h
  | case2 s line afterLine hl size hsize data afterData hd ih =>
    obtain ⟨begun, last, size, hbytes, hlast⟩ := ih (Arrival.prepend_eq_crashed_iff.mp h)
    obtain ⟨read, -, hread, hs⟩ := bytes_of_readLine hl
    refine ⟨line ++ data ++ begun, last, size, ?_, hlast⟩
    rw [hs, ← List.nil_append read, ← hread,
      (bytes_of_readExactly (of_readLiteral hd).2.2).2, hbytes]
    simp only [List.append_assoc]
  | case3 s line afterLine hl size hsize hstopped =>
    obtain ⟨read, -, hread, hs⟩ := bytes_of_readLine hl
    unfold readLiteral at h
    split at h
    next => cases h
    next hlimit =>
      split at h
      next hroom =>
        cases h
        exact ⟨[], line, size, hread ▸ hs, hsize, hroom, Nat.not_lt.mp hlimit⟩
      next => exact absurd h readExactly_ne_crashed
  | case4 s hstopped => exact absurd h readLine_ne_crashed

/-! ### Runs -/

/-- What is done with a response, if there is one. -/
theorem drain_eq (settings : Settings) (s : ByteSource) : drain settings s =
    match readResponse settings s with
    | .complete response rest =>
      { drain settings rest with responses := response :: (drain settings rest).responses }
    | .failed e rest => ⟨[], .failed e, rest⟩
    | .crashed rest => ⟨[], .crashed, rest⟩
    | .waiting => ⟨[], .waiting, s⟩ := by
  rw [drain]
  split
  next hread => rw [hread]
  next hread => rw [hread]
  next hread => rw [hread]
  next hread => rw [hread]

/-- The reader breaks down behind the responses that were read and the beginning of another one. -/
theorem exists_overtaxes_of_drain {settings : Settings} {s : ByteSource}
    (h : (drain settings s).stop = .crashed) :
    ∃ begun line size, s.bytes = (drain settings s).responses.flatten ++ (begun ++ line) ++
      (drain settings s).rest.bytes ∧ Overtaxes settings line size := by
  fun_induction drain settings s with
  | case1 s response rest hread others ih =>
    obtain ⟨begun, line, size, hbytes, hline⟩ := ih h
    refine ⟨begun, line, size, ?_, hline⟩
    rw [(bytes_of_readResponse hread).2, hbytes]
    simp only [List.flatten_cons, List.append_assoc]
    rfl
  | case2 => cases h
  | case3 s rest hread => exact exists_overtaxes hread
  | case4 => cases h

/-- Reading again and again gives the responses one by one, and then the error, unless the reader
breaks down for want of room. -/
theorem readTimes_split (settings : Settings) {s : ByteSource} (hended : s.ended)
    (hfits : (split settings.maxLiteral [] s.bytes).FitIn settings.maxLine) :
    let whole := split settings.maxLiteral [] s.bytes
    (whole.HasRoom settings.maxLiteral →
      readTimes settings (whole.responses.length + 1) s =
        whole.responses.map .ok ++ [.error whole.error]) ∧
    (¬ whole.HasRoom settings.maxLiteral →
      (drain settings s).stop = .crashed ∧ (drain settings s).responses <+: whole.responses ∧
        readTimes settings (whole.responses.length + 1) s =
          (drain settings s).responses.map .ok) := by
  intro whole
  have hagrees : Agrees settings.maxLiteral settings.maxLine [] whole (readResponse settings s) :=
    readResponse_agrees hended hfits
  -- The rest of the stream has the other responses, and its lines are some of these lines.
  fun_induction drain settings s with
  | case1 s value rest hread others ih =>
    rw [hread] at hagrees
    obtain ⟨hrest, hrestFits, hcons, herror, hsame⟩ := hagrees
    obtain ⟨hall, hnone⟩ := ih hrest hrestFits (readResponse_agrees hrest hrestFits)
    rw [hcons, List.length_cons, readTimes, hread, herror]
    refine ⟨fun hroom => congrArg _ (hall (hsame.mp hroom)), fun hroom => ?_⟩
    obtain ⟨hstop, hprefix, hmore⟩ := hnone (mt hsame.mpr hroom)
    exact ⟨hstop, (List.prefix_cons_inj _).mpr hprefix, congrArg _ hmore⟩
  | case2 s e rest hread =>
    rw [hread] at hagrees
    obtain ⟨hnil, rfl, hroom⟩ := hagrees
    exact ⟨fun _ => by simp [readTimes, hread, hnil], fun hnone => absurd hroom hnone⟩
  | case3 s rest hread =>
    rw [hread] at hagrees
    refine ⟨fun hroom => absurd hroom hagrees, fun _ => ⟨rfl, List.nil_prefix, ?_⟩⟩
    simp [readTimes, hread]
  | case4 s hread =>
    rw [hread] at hagrees
    exact hagrees.elim

/-- The responses of a stream are its first bytes. -/
theorem flatten_responses_prefix (maxLiteral : Nat) (begun bs : Bytes) :
    (split maxLiteral begun bs).responses.flatten <+: begun ++ bs := by
  fun_induction Framing.split maxLiteral begun bs with
  | case1 begun bs hs => exact List.nil_prefix
  | case2 begun bs content after hs hsize others ih =>
    rw [eq_of_splitCrlf hs, List.flatten_cons, List.append_assoc begun, List.append_assoc begun]
    rw [List.prefix_append_right_inj, List.prefix_append_right_inj]
    exact ih
  | case3 => exact List.nil_prefix
  | case4 => exact List.nil_prefix
  | case5 begun bs content after hs size hsize hlarge hshort others ih =>
    have hbytes : begun ++ content ++ crlf ++ after.take size ++ after.drop size = begun ++ bs := by
      rw [List.append_assoc _ (after.take size), List.take_append_drop, eq_of_splitCrlf hs]
      simp only [List.append_assoc]
    rw [hbytes] at ih
    exact ih

/-- Framing does not depend on how the bytes arrive: whatever the chunks, if the lines of the stream
keep within the limit, then reading gives the responses of the stream as a whole and then its error,
and no byte of the responses is lost, repeated or out of order. Reading comes to that if, and only
if, no literal within the limit is announced that is too large for a buffer. Otherwise it gives the
first of the responses, and the reader breaks down behind a line that announces such a literal. -/
theorem readTimes_ofChunks (settings : Settings) (chunks : List Bytes)
    (hfits : (split settings.maxLiteral [] chunks.flatten).FitIn settings.maxLine) :
    let whole := split settings.maxLiteral [] chunks.flatten
    (whole.HasRoom settings.maxLiteral →
      readTimes settings (whole.responses.length + 1) (.ofChunks chunks) =
        whole.responses.map .ok ++ [.error whole.error]) ∧
    (¬ whole.HasRoom settings.maxLiteral →
      let read := drain settings (.ofChunks chunks)
      read.stop = .crashed ∧ read.responses <+: whole.responses ∧
      readTimes settings (whole.responses.length + 1) (.ofChunks chunks) =
        read.responses.map .ok ∧
      ∃ begun line size,
        chunks.flatten = read.responses.flatten ++ (begun ++ line) ++ read.rest.bytes ∧
          Overtaxes settings line size) ∧
    whole.responses.flatten <+: chunks.flatten := by
  obtain ⟨hall, hnone⟩ := readTimes_split settings (s := .ofChunks chunks) rfl hfits
  refine ⟨hall, fun hroom => ?_, flatten_responses_prefix _ [] _⟩
  obtain ⟨hstop, hprefix, hread⟩ := hnone hroom
  exact ⟨hstop, hprefix, hread, exists_overtaxes_of_drain hstop⟩

/-- A terminator that is cut in two, and a literal that ends in the first half of one. And the
header of a literal that the limit allows and no buffer can hold, behind another response. -/
theorem readTimes_ofChunks_cut :
    readTimes { maxLine := 9 } 2
        (.ofChunks [utf8 "* 1 \x7b3+\x7d\r", utf8 "\nab", utf8 "\r", utf8 "\nX\r\n"]) =
      [.ok (utf8 "* 1 \x7b3+\x7d\r\nab\r\nX\r\n"), .error .connectionClosed] ∧
    let read := drain { maxLiteral := allocationBound }
      (.ofChunks [utf8 "* 1\r\n* \x7b92233720", utf8 "36854775808\x7d\r\n"])
    read.stop = .crashed ∧ read.responses = [utf8 "* 1\r\n"] := by
  constructor
  · have hsplit : split 104857600 []
        [utf8 "* 1 \x7b3+\x7d\r", utf8 "\nab", utf8 "\r", utf8 "\nX\r\n"].flatten =
          ⟨[utf8 "* 1 \x7b3+\x7d\r\nab\r\nX\r\n"], .connectionClosed,
            [utf8 "* 1 \x7b3+\x7d", utf8 "\nX"], []⟩ := by
      decide +kernel
    have hread := (readTimes_ofChunks { maxLine := 9 }
      [utf8 "* 1 \x7b3+\x7d\r", utf8 "\nab", utf8 "\r", utf8 "\nX\r\n"]
      (by rw [hsplit]; exact ⟨by decide, by decide⟩)).1
    rw [hsplit] at hread
    refine hread fun line hline size hsize hlimit => ?_
    exact Nat.lt_of_le_of_lt hlimit (by decide)
  · have hsplit : split allocationBound []
        [utf8 "* 1\r\n* \x7b92233720", utf8 "36854775808\x7d\r\n"].flatten =
          ⟨[utf8 "* 1\r\n"], .streamTruncated,
            [utf8 "* 1", utf8 "* \x7b9223372036854775808\x7d"], []⟩ := by
      decide +kernel
    have hread := (readTimes_ofChunks { maxLiteral := allocationBound }
      [utf8 "* 1\r\n* \x7b92233720", utf8 "36854775808\x7d\r\n"]
      (by rw [hsplit]; exact ⟨by decide +kernel, by decide⟩)).2.1
    rw [hsplit] at hread
    have hcrash : ¬ Frames.HasRoom ⟨[utf8 "* 1\r\n"], .streamTruncated,
        [utf8 "* 1", utf8 "* \x7b9223372036854775808\x7d"], []⟩ allocationBound := by
      intro hroom
      exact absurd (hroom _ (List.mem_cons_of_mem _ List.mem_cons_self) allocationBound
        (by decide +kernel) (Nat.le_refl _)) (Nat.lt_irrefl _)
    obtain ⟨hstop, -, hresponses, -⟩ := hread hcrash
    have hfirst : readTimes { maxLiteral := allocationBound } 2
        (.ofChunks [utf8 "* 1\r\n* \x7b92233720", utf8 "36854775808\x7d\r\n"]) =
        [.ok (utf8 "* 1\r\n")] := by
      decide +kernel
    obtain ⟨response, hread, hresponse⟩ :=
      List.map_eq_singleton_iff.mp (hresponses.symm.trans hfirst)
    cases hresponse
    exact ⟨hstop, hread⟩

end ImapSearch.Framing
