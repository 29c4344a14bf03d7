import ImapSearch.Bytes

/-!
# ImapSearch.ByteSource

**Bytes as they arrive.** A connection delivers its bytes in chunks of any size.
A `ByteSource` holds the chunks that have arrived and were not read, a buffer in
front of them that takes in a part of one chunk at a time, and whether the other
side has ended the stream. Reading takes bytes out of the buffer; only a large
read with nothing in the buffer takes them from a chunk at once.

`ByteSource.bytes` is what a source still holds, whatever its division into
chunks, and every operation says what it does to it.
-/

namespace ImapSearch

/-- The bytes of a stream that have arrived and were not read. -/
structure ByteSource where
  /-- The bytes that were taken in. -/
  buffer : Bytes := []
  /-- The chunks behind the buffer, in the order in which they arrived. -/
  chunks : List Bytes := []
  /-- Whether nothing will arrive any more. -/
  ended : Bool := false
deriving DecidableEq, Repr

/-- Up to `limit` bytes of the first chunk that has any, and the chunks that are left. -/
def takeChunk (limit : Nat) : List Bytes → Bytes × List Bytes
  | [] => ([], [])
  | chunk :: rest =>
    if chunk = [] then takeChunk limit rest else (chunk.take limit, chunk.drop limit :: rest)

/-- Taking bytes from the chunks loses none. -/
theorem flatten_takeChunk (limit : Nat) (chunks : List Bytes) :
    (takeChunk limit chunks).1 ++ (takeChunk limit chunks).2.flatten = chunks.flatten := by
  induction chunks with
  | nil => rfl
  | cons chunk rest ih =>
    unfold takeChunk
    split
    next h => simp [h, ih]
    next => simp [← List.append_assoc]

/-- Nothing is taken only where nothing is left. -/
theorem takeChunk_eq_nil {limit : Nat} (hl : 0 < limit) {chunks : List Bytes}
    (h : (takeChunk limit chunks).1 = []) : chunks.flatten = [] := by
  induction chunks with
  | nil => rfl
  | cons chunk rest ih =>
    unfold takeChunk at h
    split at h
    next hc => simp [hc, ih h]
    next hc => simp [List.take_eq_nil_iff, hc, Nat.ne_of_gt hl] at h

theorem length_takeChunk_le (limit : Nat) (chunks : List Bytes) :
    (takeChunk limit chunks).1.length ≤ limit := by
  induction chunks with
  | nil => simp [takeChunk]
  | cons chunk rest ih =>
    unfold takeChunk
    split
    · exact ih
    · exact List.length_take_le limit chunk

namespace ByteSource

/-- How many bytes the buffer takes in at a time. -/
def bufferSize : Nat := 8192

/-- A stream that delivers the given chunks and ends. -/
def ofChunks (chunks : List Bytes) : ByteSource := { chunks, ended := true }

/-- All bytes that were not read. -/
def bytes (s : ByteSource) : Bytes := s.buffer ++ s.chunks.flatten

/-- The stream with one more chunk. -/
def push (s : ByteSource) (chunk : Bytes) : ByteSource := { s with chunks := s.chunks ++ [chunk] }

/-- The stream, at which nothing arrives any more. -/
def finish (s : ByteSource) : ByteSource := { s with ended := true }

/-- Takes the next bytes into the buffer if it is empty. -/
def fill (s : ByteSource) : ByteSource :=
  if s.buffer = [] then
    { s with
      buffer := (takeChunk bufferSize s.chunks).1
      chunks := (takeChunk bufferSize s.chunks).2 }
  else s

/-- Reads some of the next bytes, `n` of them at most. -/
def read (s : ByteSource) (n : Nat) : Bytes × ByteSource :=
  if s.buffer = [] ∧ bufferSize ≤ n then
    ((takeChunk n s.chunks).1, { s with chunks := (takeChunk n s.chunks).2 })
  else (s.fill.buffer.take n, { s.fill with buffer := s.fill.buffer.drop n })

/-! ### What a source holds -/

@[simp] theorem bytes_push (s : ByteSource) (chunk : Bytes) :
    (s.push chunk).bytes = s.bytes ++ chunk := by
  simp [bytes, push]

@[simp] theorem bytes_finish (s : ByteSource) : s.finish.bytes = s.bytes := rfl

@[simp] theorem bytes_fill (s : ByteSource) : s.fill.bytes = s.bytes := by
  unfold fill bytes
  split
  next h => simp [h, flatten_takeChunk]
  next => rfl

@[simp] theorem ended_fill (s : ByteSource) : s.fill.ended = s.ended := by
  unfold fill
  split <;> rfl

/-- The buffer stays empty only where nothing is left. -/
theorem buffer_fill_eq_nil {s : ByteSource} (h : s.fill.buffer = []) : s.bytes = [] := by
  unfold fill at h
  split at h
  next hb => simp [bytes, hb, takeChunk_eq_nil (by decide) h]
  next hb => exact absurd h hb

/-- Reading loses no byte. -/
theorem bytes_read (s : ByteSource) (n : Nat) :
    (s.read n).1 ++ (s.read n).2.bytes = s.bytes := by
  unfold read
  split
  next h => simp [bytes, h.1, flatten_takeChunk]
  next =>
    rw [← bytes_fill s]
    simp [bytes, ← List.append_assoc]

theorem length_read_le (s : ByteSource) (n : Nat) : (s.read n).1.length ≤ n := by
  unfold read
  split
  · exact length_takeChunk_le n s.chunks
  · exact List.length_take_le n _

/-- Nothing is read only where nothing is left. -/
theorem read_eq_nil {s : ByteSource} {n : Nat} (hn : 0 < n) (h : (s.read n).1 = []) :
    s.bytes = [] := by
  unfold read at h
  split at h
  next hb => simp [bytes, hb.1, takeChunk_eq_nil hn h]
  next =>
    simp [List.take_eq_nil_iff, Nat.ne_of_gt hn] at h
    exact buffer_fill_eq_nil h

@[simp] theorem ended_read (s : ByteSource) (n : Nat) : (s.read n).2.ended = s.ended := by
  unfold read
  split <;> simp

end ByteSource

end ImapSearch
