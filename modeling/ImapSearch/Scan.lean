import ImapSearch.Error

/-!
# ImapSearch.Scan

**Reading a response from left to right.** A `Cursor` is a place in a response:
how many bytes were read, and the bytes that are left. A `Scan` reads on from a
cursor. It gives a value or an error, and in both cases the cursor at which it
stopped, so that reading can go on after an error.

Every scan of this library moves forward (`Scan.Forward`): the bytes that it
leaves are the end of those that it was given. The property composes, and the
loops of the library end because of it.
-/

namespace ImapSearch

/-! ### Cursors -/

/-- A place in a response. -/
structure Cursor where
  /-- How many bytes were read. -/
  pos : Nat
  /-- The bytes that are left. -/
  rest : Bytes
deriving DecidableEq, Repr

namespace Cursor

/-- The beginning of a response. -/
def start (input : Bytes) : Cursor := ⟨0, input⟩

/-- The next byte, if there is one. -/
def peek (c : Cursor) : Option UInt8 := c.rest.head?

/-- Whether every byte was read. -/
def atEnd (c : Cursor) : Bool := c.rest.isEmpty

/-- Whether nothing but a line terminator is left, judged by the next byte. -/
def atLineEnd (c : Cursor) : Bool := c.peek == none || c.peek == some Ascii.cr

/-- The cursor `n` bytes further on, or at the end if fewer are left. -/
def skip (c : Cursor) (n : Nat) : Cursor := ⟨c.pos + (c.rest.take n).length, c.rest.drop n⟩

/-- `c.Reaches d` if reading on from `c` can lead to `d`. -/
def Reaches (c d : Cursor) : Prop :=
  ∃ read, c.rest = read ++ d.rest ∧ d.pos = c.pos + read.length

theorem Reaches.refl (c : Cursor) : c.Reaches c := ⟨[], by simp, by simp⟩

theorem Reaches.trans {c d e : Cursor} (hcd : c.Reaches d) (hde : d.Reaches e) : c.Reaches e := by
  obtain ⟨r, hr, hp⟩ := hcd
  obtain ⟨s, hs, hq⟩ := hde
  exact ⟨r ++ s, by simp [hr, hs], by simp [hp, hq, Nat.add_assoc]⟩

theorem Reaches.length_le {c d : Cursor} (h : c.Reaches d) : d.rest.length ≤ c.rest.length := by
  obtain ⟨r, hr, -⟩ := h
  simp [hr]

theorem reaches_skip (c : Cursor) (n : Nat) : c.Reaches (c.skip n) :=
  ⟨c.rest.take n, by simp [skip], by simp [skip]⟩

end Cursor

/-! ### Scans -/

/-- A reader of responses. -/
abbrev Scan (α : Type) : Type := EStateM Error Cursor α

namespace Scan

variable {α β : Type}

/-- Fails where the cursor stands. -/
def fail (fault : Fault) : Scan α := fun c => .error (.malformed c.pos fault) c

/-- Reads the byte if it is the next one, and tells whether it was. -/
def eat (b : UInt8) : Scan Bool := fun c =>
  if c.peek = some b then .ok true (c.skip 1) else .ok false c

/-- Reads the bytes up to the first that does not have the property. -/
def takeWhile (p : UInt8 → Bool) : Scan Bytes := fun c =>
  .ok (c.rest.takeWhile p) (c.skip (c.rest.takeWhile p).length)

/-- Reads exactly `n` bytes, if that many are left. -/
def take? (n : Nat) : Scan (Option Bytes) := fun c =>
  if (c.rest.take n).length = n then .ok (some (c.rest.take n)) (c.skip n) else .ok none c

/-- The next byte, which stays unread. -/
def peek : Scan (Option UInt8) := fun c => .ok c.peek c

/-- Whether nothing but a line terminator is left. -/
def lineEnds : Scan Bool := fun c => .ok c.atLineEnd c

/-! ### Running one scan after another -/

theorem bind_apply (s : Scan α) (f : α → Scan β) (c : Cursor) :
    (s >>= f) c = match s c with
      | .ok a d => f a d
      | .error e d => .error e d := by
  cases h : s c <;> simp [bind, EStateM.bind, h]

theorem map_apply (f : α → β) (s : Scan α) (c : Cursor) :
    (f <$> s) c = match s c with
      | .ok a d => .ok (f a) d
      | .error e d => .error e d := by
  cases h : s c <;> simp [Functor.map, EStateM.map, h]

/-! ### Moving forward -/

/-- Where a scan stopped, with a value or with an error. -/
def stop : EStateM.Result Error Cursor α → Cursor
  | .ok _ c => c
  | .error _ c => c

/-- A scan moves forward if it always stops where reading on can lead. -/
def Forward (s : Scan α) : Prop := ∀ c : Cursor, c.Reaches (stop (s c))

theorem Forward.ok {s : Scan α} (hs : s.Forward) {c d : Cursor} {a : α} (h : s c = .ok a d) :
    c.Reaches d := by
  simpa [stop, h] using hs c

theorem Forward.error {s : Scan α} (hs : s.Forward) {c d : Cursor} {e : Error}
    (h : s c = .error e d) : c.Reaches d := by
  simpa [stop, h] using hs c

theorem forward_pure (a : α) : (pure a : Scan α).Forward := fun c => .refl c

theorem forward_fail (fault : Fault) : (fail fault : Scan α).Forward := fun c => .refl c

theorem Forward.bind {s : Scan α} {f : α → Scan β} (hs : s.Forward) (hf : ∀ a, (f a).Forward) :
    (s >>= f).Forward := by
  intro c
  rw [bind_apply]
  cases h : s c with
  | error e d => exact hs.error h
  | ok a d => exact (hs.ok h).trans (hf a d)

theorem Forward.map {s : Scan α} (f : α → β) (hs : s.Forward) : (f <$> s).Forward := by
  intro c
  rw [map_apply]
  cases h : s c with
  | error e d => exact hs.error h
  | ok a d => exact hs.ok h

theorem forward_eat (b : UInt8) : (eat b).Forward := by
  intro c
  unfold eat
  split
  · exact c.reaches_skip 1
  · exact .refl c

theorem forward_takeWhile (p : UInt8 → Bool) : (takeWhile p).Forward :=
  fun c => c.reaches_skip _

theorem forward_take? (n : Nat) : (take? n).Forward := by
  intro c
  unfold take?
  split
  · exact c.reaches_skip n
  · exact .refl c

theorem forward_peek : peek.Forward := fun c => .refl c

theorem forward_lineEnds : lineEnds.Forward := fun c => .refl c

end Scan

end ImapSearch
