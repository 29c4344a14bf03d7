import ImapSearch.ByteSource
import ImapSearch.Scan.Token
import ImapSearch.Settings

/-!
# ImapSearch.Framing

**From a stream of bytes to complete responses.** A response is a line; but a
line that ends in a literal header, `{n}` or `{n+}`, is followed by `n` bytes of
data and by another line of the same response. `readResponse` reads a response
as a whole, its literals included, without looking at what else is in it.

A line or a literal above its limit is an error. After an error the source
stands where reading stopped, and the response that was being read is lost.
While the stream has not ended, a response that is not complete yet is no error:
it waits for more bytes (`Arrival.waiting`), and is then read from its beginning.

The data of a literal are read into a buffer that is made when the literal is
announced. No buffer can be larger than an address space of 64 bits allows, and
the limit on literals need not be smaller than that: a reader that is to make
such a buffer gives no error, but breaks down (`Arrival.crashed`). How much memory
there really is, is not considered here.
-/

namespace ImapSearch

/-- What became of an attempt to read from a stream. -/
inductive Arrival (α : Type)
  /-- A value was read, and the source holds what follows it. -/
  | complete (value : α) (rest : ByteSource)
  /-- Reading failed, and the source holds what was not read. -/
  | failed (error : Error) (rest : ByteSource)
  /-- The reader broke down, and the source holds what was not read. -/
  | crashed (rest : ByteSource)
  /-- More bytes have to arrive. -/
  | waiting
deriving Repr

namespace Arrival

/-- The same arrival with bytes in front of the value. -/
def prepend (front : Bytes) : Arrival Bytes → Arrival Bytes
  | .complete value rest => .complete (front ++ value) rest
  | .failed e rest => .failed e rest
  | .crashed rest => .crashed rest
  | .waiting => .waiting

theorem exists_of_prepend {front value : Bytes} {arrival : Arrival Bytes} {rest : ByteSource}
    (h : arrival.prepend front = .complete value rest) :
    ∃ more, arrival = .complete more rest ∧ front ++ more = value := by
  cases arrival with
  | complete more rest' =>
    cases h
    exact ⟨more, rfl, rfl⟩
  | failed | crashed | waiting => cases h

section Stopped

variable {front : Bytes} {arrival : Arrival Bytes} {rest : ByteSource}

@[simp] theorem prepend_eq_failed_iff {e : Error} :
    arrival.prepend front = .failed e rest ↔ arrival = .failed e rest := by
  cases arrival <;> simp [prepend]

@[simp] theorem prepend_eq_crashed_iff :
    arrival.prepend front = .crashed rest ↔ arrival = .crashed rest := by
  cases arrival <;> simp [prepend]

@[simp] theorem prepend_eq_waiting_iff :
    arrival.prepend front = .waiting ↔ arrival = .waiting := by
  cases arrival <;> simp [prepend]

end Stopped

end Arrival

namespace Framing

/-! ### Lines -/

/-- Reads on in a line of which `line` was read, up to its terminator. -/
def readLine (maxLine : Nat) (line : Bytes) (s : ByteSource) : Arrival Bytes :=
  match _h : s.fill.buffer with
  | [] => if s.ended then .failed .connectionClosed s.fill else .waiting
  | b :: rest =>
    if line.getLast? = some Ascii.cr ∧ b = Ascii.lf then
      .complete (line ++ [Ascii.lf]) { s.fill with buffer := rest }
    else
      match splitCrlf (b :: rest) with
      | some (before, after) =>
        if maxLine < line.length + before.length then .failed .lineTooLong s.fill
        else .complete (line ++ before ++ crlf) { s.fill with buffer := after }
      | none =>
        if maxLine < (line ++ b :: rest).length then
          .failed .lineTooLong { s.fill with buffer := [] }
        else readLine maxLine (line ++ b :: rest) { s.fill with buffer := [] }
termination_by s.bytes.length
decreasing_by
  rw [← ByteSource.bytes_fill s]
  simp only [ByteSource.bytes, _h, List.length_append, List.length_nil, List.length_cons]
  omega

/-- The size that a literal header at the end of a line announces, if the line ends in one. -/
def announcedSize? (line : Bytes) : Option Nat :=
  match line.reverse with
  | lf :: cr :: brace :: header =>
    if lf = Ascii.lf ∧ cr = Ascii.cr ∧ brace = Ascii.closeBrace then
      let digits := if header.head? = some Ascii.plus then header.tail else header
      match digits.span (· ≠ Ascii.openBrace) with
      | (_, []) => none
      | (size, _ :: _) => Decimal.decodeBelow? sizeBound size.reverse
    else none
  | _ => none

/-! ### Literals -/

/-- Reads exactly `n` bytes. -/
def readExactly (n : Nat) (s : ByteSource) : Arrival Bytes :=
  if n = 0 then .complete [] s
  else if (s.read n).1 = [] then
    if s.ended then .failed .streamTruncated (s.read n).2 else .waiting
  else
    (readExactly (n - (s.read n).1.length) (s.read n).2).prepend (s.read n).1
termination_by n
decreasing_by
  have := List.length_pos_iff.mpr ‹¬(s.read n).1 = []›
  omega

/-- What the size of a buffer stays below: the first number that needs more than 63 bits. -/
def allocationBound : Nat := 9223372036854775808

/-- Reads the data of a literal for which `n` bytes are announced. -/
def readLiteral (maxLiteral n : Nat) (s : ByteSource) : Arrival Bytes :=
  if maxLiteral < n then .failed (.literalTooLarge n maxLiteral) s
  else if allocationBound ≤ n then .crashed s
  else readExactly n s

/-! ### Nothing is lost -/

/-- A line is what was read of it before, and the first bytes of the source. -/
theorem bytes_of_readLine {maxLine : Nat} {line value : Bytes} {s rest : ByteSource}
    (h : readLine maxLine line s = .complete value rest) :
    ∃ read, read ≠ [] ∧ value = line ++ read ∧ s.bytes = read ++ rest.bytes := by
  fun_induction readLine maxLine line s with
  | case1 => cases h
  | case2 => cases h
  | case3 line s b tail hb hlf =>
    cases h
    refine ⟨[Ascii.lf], by simp, rfl, ?_⟩
    rw [← ByteSource.bytes_fill s]
    simp [ByteSource.bytes, hb, hlf.2]
  | case4 => cases h
  | case5 line s b tail hb _ before after hs =>
    cases h
    refine ⟨before ++ crlf, by simp [crlf], by simp, ?_⟩
    rw [← ByteSource.bytes_fill s]
    simp [ByteSource.bytes, hb, eq_of_splitCrlf hs]
  | case6 => cases h
  | case7 line s b tail hb _ _ _ ih =>
    obtain ⟨read, -, hv, hr⟩ := ih h
    refine ⟨b :: tail ++ read, by simp, by simp [hv], ?_⟩
    rw [← ByteSource.bytes_fill s]
    simp [ByteSource.bytes, hb] at hr ⊢
    exact hr

/-- The data of a literal are the first bytes of the source. -/
theorem bytes_of_readExactly {n : Nat} {value : Bytes} {s rest : ByteSource}
    (h : readExactly n s = .complete value rest) :
    value.length = n ∧ s.bytes = value ++ rest.bytes := by
  fun_induction readExactly n s generalizing value rest with
  | case1 => cases h; simp
  | case2 => cases h
  | case3 => cases h
  | case4 n s _ hne ih =>
    obtain ⟨data, hd, rfl⟩ := Arrival.exists_of_prepend h
    obtain ⟨hl, hb⟩ := ih hd
    have := s.length_read_le n
    refine ⟨by simp [hl]; omega, ?_⟩
    rw [← s.bytes_read n, hb, List.append_assoc]

/-- A literal that was read is within its limit, and a buffer can hold it. -/
theorem of_readLiteral {maxLiteral n : Nat} {value : Bytes} {s rest : ByteSource}
    (h : readLiteral maxLiteral n s = .complete value rest) :
    n ≤ maxLiteral ∧ n < allocationBound ∧ readExactly n s = .complete value rest := by
  unfold readLiteral at h
  split at h
  next => cases h
  next hlimit =>
    split at h
    next => cases h
    next hroom => exact ⟨Nat.not_lt.mp hlimit, Nat.not_le.mp hroom, h⟩

/-! ### Responses -/

/-- Reads one complete response. -/
def readResponse (settings : Settings) (s : ByteSource) : Arrival Bytes :=
  match _hl : readLine settings.maxLine [] s with
  | .complete line afterLine =>
    match announcedSize? line with
    | none => .complete line afterLine
    | some size =>
      match _hd : readLiteral settings.maxLiteral size afterLine with
      | .complete data afterData => (readResponse settings afterData).prepend (line ++ data)
      | stopped => stopped
  | stopped => stopped
termination_by s.bytes.length
decreasing_by
  obtain ⟨read, hne, -, hr⟩ := bytes_of_readLine _hl
  have hpos := List.length_pos_iff.mpr hne
  have hd := congrArg List.length (bytes_of_readExactly (of_readLiteral _hd).2.2).2
  have hs := congrArg List.length hr
  simp at hd hs
  omega

/-- A response is the first bytes of the source, and one of them at least. -/
theorem bytes_of_readResponse {settings : Settings} {value : Bytes} {s rest : ByteSource}
    (h : readResponse settings s = .complete value rest) :
    value ≠ [] ∧ s.bytes = value ++ rest.bytes := by
  fun_induction readResponse settings s generalizing value rest with
  | case1 s line afterLine hl _ =>
    cases h
    obtain ⟨read, hne, hv, hr⟩ := bytes_of_readLine hl
    simp only [List.nil_append] at hv
    exact ⟨hv ▸ hne, hv ▸ hr⟩
  | case2 s line afterLine hl size _ data afterData hd ih =>
    obtain ⟨more, hm, rfl⟩ := Arrival.exists_of_prepend h
    obtain ⟨read, hne, hv, hr⟩ := bytes_of_readLine hl
    simp only [List.nil_append] at hv
    refine ⟨by simp [hv, hne], ?_⟩
    rw [hr, ← hv, (bytes_of_readExactly (of_readLiteral hd).2.2).2, (ih hm).2]
    simp
  | case3 s line afterLine hl size _ hstopped => exact absurd h (hstopped _ _)
  | case4 s hstopped => exact absurd h (hstopped _ _)

/-! ### Runs of responses -/

/-- Tries `n` times to read a response, going on after errors. It stops early where more bytes have
to arrive, and where the reader breaks down. -/
def readTimes (settings : Settings) : Nat → ByteSource → List (Except Error Bytes)
  | 0, _ => []
  | n + 1, s =>
    match readResponse settings s with
    | .complete response rest => .ok response :: readTimes settings n rest
    | .failed e rest => .error e :: readTimes settings n rest
    | .crashed _ | .waiting => []

/-- Why nothing more is read. -/
inductive Stop
  /-- More bytes have to arrive. -/
  | waiting
  /-- Reading failed. -/
  | failed (error : Error)
  /-- The reader broke down. -/
  | crashed
deriving DecidableEq, Repr

/-- Whether more can be read when more has arrived. -/
def Stop.isWaiting : Stop → Bool
  | .waiting => true
  | .failed _ | .crashed => false

/-- What a source delivered until there was no more to read. -/
structure Drained where
  /-- The responses, in order. -/
  responses : List Bytes
  /-- Why there are no more. -/
  stop : Stop
  /-- The bytes that belong to no response yet. -/
  rest : ByteSource
deriving Repr

/-- Reads responses for as long as they are complete. -/
def drain (settings : Settings) (s : ByteSource) : Drained :=
  match _h : readResponse settings s with
  | .complete response rest =>
    let others := drain settings rest
    { others with responses := response :: others.responses }
  | .failed e rest => ⟨[], .failed e, rest⟩
  | .crashed rest => ⟨[], .crashed, rest⟩
  | .waiting => ⟨[], .waiting, s⟩
termination_by s.bytes.length
decreasing_by
  obtain ⟨hne, hb⟩ := bytes_of_readResponse _h
  have := List.length_pos_iff.mpr hne
  simp [hb]
  omega

/-- The error that ended reading, if it was one. -/
def Drained.error (d : Drained) : Option Error :=
  match d.stop with
  | .failed e => some e
  | .waiting | .crashed => none

end Framing

end ImapSearch
