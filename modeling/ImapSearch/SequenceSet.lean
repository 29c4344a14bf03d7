/-!
# ImapSearch.SequenceSet

**Sets of message numbers.** A sequence set names messages by number, as in
`1:3,7,10:*`. The same type carries message sequence numbers and UIDs; which of
the two a set holds is decided by the place it stands in.

* `Span` — a run of numbers with both ends known.
* `OpenRange` — a range that reaches to `*`, the largest number in use, which
  only the mailbox knows.
* `SequenceSet` — the spans in ascending order, merged wherever they touch, so
  that two sets of the same numbers are one value; then the open ranges in the
  order in which they came, each of them once.

Adding a span (`insertSpan`) is one pass: spans that end before it are kept,
spans that overlap or touch it are swallowed, and what follows stays as it is.
-/

namespace ImapSearch

/-! ### Numbers and ranges -/

/-- The largest number that a message can have, the largest of 32 bits. -/
def maxNumber : Nat := 4294967295

/-- Whether a message can have this number. -/
def isNumber (n : Nat) : Bool := 1 ≤ n && n ≤ maxNumber

/-- The numbers from `first` to `last`, both included. -/
structure Span where
  /-- The lowest number. -/
  first : Nat
  /-- The highest number. -/
  last : Nat
deriving DecidableEq, Repr

/-- A range that reaches to the largest number in use. -/
inductive OpenRange
  /-- From a number up to the largest number in use, whichever of them is larger. -/
  | onward (first : Nat)
  /-- The largest number in use. -/
  | star
deriving DecidableEq, Repr

/-- A range of a sequence set. -/
inductive SeqRange
  /-- A range with both ends known. -/
  | span (s : Span)
  /-- A range that reaches to `*`. -/
  | openEnded (r : OpenRange)
deriving DecidableEq, Repr

namespace Span

/-- The span between two numbers, given in either order. -/
def between (a b : Nat) : Span := ⟨min a b, max a b⟩

/-- Whether the number lies in the span. -/
def contains (s : Span) (n : Nat) : Bool := s.first ≤ n && n ≤ s.last

/-- The numbers of the span in ascending order. -/
def nums (s : Span) : List Nat := List.range' s.first (s.last + 1 - s.first)

/-- How many numbers the span holds. -/
def size (s : Span) : Nat := s.last + 1 - s.first

end Span

/-- Whether the number lies in the range when `*` is the largest number there can be. -/
def OpenRange.contains : OpenRange → Nat → Bool
  | .onward first, n => first ≤ n && n ≤ maxNumber
  | .star, n => n == maxNumber

namespace SeqRange

/-- The lower bound, absent when it is `*`. -/
def first? : SeqRange → Option Nat
  | .span s => some s.first
  | .openEnded (.onward first) => some first
  | .openEnded .star => none

/-- The upper bound, absent when it is `*`. -/
def last? : SeqRange → Option Nat
  | .span s => some s.last
  | .openEnded _ => none

/-- Whether the range reaches to `*`. -/
def isDynamic : SeqRange → Bool
  | .span _ => false
  | .openEnded _ => true

/-- Whether the number lies in the range when `*` is the largest number there can be. -/
def contains : SeqRange → Nat → Bool
  | .span s, n => s.contains n
  | .openEnded r, n => r.contains n

end SeqRange

/-! ### Sets -/

/-- A set of message numbers. -/
structure SequenceSet where
  /-- The spans, in ascending order and merged. -/
  spans : List Span := []
  /-- The ranges that reach to `*`, in the order in which they were added. -/
  dynamic : List OpenRange := []
deriving DecidableEq, Repr, Inhabited

/-- Adds a span to ascending spans and merges it with those that it overlaps or touches. -/
def insertSpan (s : Span) : List Span → List Span
  | [] => [s]
  | r :: rest =>
    if r.last + 1 < s.first then r :: insertSpan s rest
    else if s.last + 1 < r.first then s :: r :: rest
    else insertSpan ⟨min s.first r.first, max s.last r.last⟩ rest

namespace SequenceSet

/-- The set without numbers. -/
def empty : SequenceSet := {}

/-- Adds a range. A range that reaches to `*` is not merged, and is added only once. -/
def insert (set : SequenceSet) : SeqRange → SequenceSet
  | .span s => { set with spans := insertSpan s set.spans }
  | .openEnded r =>
    if r ∈ set.dynamic then set else { set with dynamic := set.dynamic ++ [r] }

/-- Adds a number. What can number no message is ignored. -/
def addNum (set : SequenceSet) (n : Nat) : SequenceSet :=
  if isNumber n then set.insert (.span ⟨n, n⟩) else set

/-- Adds the numbers between two bounds, in either order. The range is ignored if a bound can number
no message. -/
def addRange (set : SequenceSet) (a b : Nat) : SequenceSet :=
  if isNumber a ∧ isNumber b then set.insert (.span (Span.between a b)) else set

/-- The ranges of the set: the spans, then the ranges that reach to `*`. -/
def ranges (set : SequenceSet) : List SeqRange :=
  set.spans.map .span ++ set.dynamic.map .openEnded

/-- Adds every range of another set. -/
def extend (set other : SequenceSet) : SequenceSet := other.ranges.foldl insert set

/-- The set of the given ranges. -/
def ofRanges (rs : List SeqRange) : SequenceSet := rs.foldl insert empty

/-- The set of the given numbers, without those that can number no message. -/
def ofNums (ns : List Nat) : SequenceSet := ns.foldl addNum empty

/-- The numbers between two bounds, in either order, if both can number a message. -/
def range? (a b : Nat) : Option SequenceSet :=
  if isNumber a ∧ isNumber b then some (empty.addRange a b) else none

/-- The set of one number, if it can number a message. -/
def single? (n : Nat) : Option SequenceSet := range? n n

/-- The numbers from `first` up to `*`, if `first` can number a message. -/
def rangeFrom? (first : Nat) : Option SequenceSet :=
  if isNumber first then some (empty.insert (.openEnded (.onward first))) else none

/-- Every message. -/
def all : SequenceSet := empty.insert (.openEnded (.onward 1))

/-- Whether the set holds no range. -/
def isEmpty (set : SequenceSet) : Bool := set.spans.isEmpty && set.dynamic.isEmpty

theorem eq_empty_of_isEmpty {set : SequenceSet} (h : set.isEmpty) : set = empty := by
  obtain ⟨spans, dynamic⟩ := set
  simpa [isEmpty, empty] using h

/-- Whether the set reaches to `*`. -/
def isDynamic (set : SequenceSet) : Bool := !set.dynamic.isEmpty

/-- Whether the number is in the set when `*` is the largest number there can be. -/
def contains (set : SequenceSet) (n : Nat) : Bool := set.ranges.any (·.contains n)

/-- How many numbers the spans hold. -/
def size (set : SequenceSet) : Nat := set.spans.foldr (fun s n => s.size + n) 0

/-- The numbers in ascending order, unless the set reaches to `*`. -/
def nums? (set : SequenceSet) : Option (List Nat) :=
  if set.isDynamic then none else some (set.spans.flatMap Span.nums)

end SequenceSet

end ImapSearch
