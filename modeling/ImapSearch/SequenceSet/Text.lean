import ImapSearch.Error
import ImapSearch.SequenceSet

/-!
# ImapSearch.SequenceSet.Text

**The text of a sequence set.** A set is written as its ranges with commas
between them. A range is one bound, or two bounds with a colon between them; a
bound is a number that a message can have, or `*`. Reading takes the bounds of a
range in either order and merges the ranges; it takes a text as a whole or not
at all.
-/

namespace ImapSearch

/-- A bound of a range as it is written. -/
inductive Bound
  /-- A number that a message can have. -/
  | number (n : Nat)
  /-- `*`, the largest number in use. -/
  | star
deriving DecidableEq, Repr

namespace Bound

/-- The bytes of a bound. -/
def encode : Bound → Bytes
  | .number n => Decimal.encode n
  | .star => [Ascii.star]

/-- Reads a bound. A number may have leading zeros. -/
def decode? (bs : Bytes) : Option Bound :=
  if bs = [Ascii.star] then some .star
  else ((Decimal.decodeBelow? (maxNumber + 1) bs).filter isNumber).map .number

end Bound

namespace SeqRange

/-- The range between two bounds, given in either order. -/
def ofBounds : Bound → Bound → SeqRange
  | .number a, .number b => .span (Span.between a b)
  | .number a, .star => .openEnded (.onward a)
  | .star, .number b => .openEnded (.onward b)
  | .star, .star => .openEnded .star

/-- The bytes of a range. A range of one number is written as that number. -/
def encode : SeqRange → Bytes
  | .span s =>
    if s.first = s.last then Decimal.encode s.first
    else Decimal.encode s.first ++ Ascii.colon :: Decimal.encode s.last
  | .openEnded (.onward first) => Decimal.encode first ++ [Ascii.colon, Ascii.star]
  | .openEnded .star => [Ascii.star]

/-- Reads a range: what stands before the first colon and what follows it are its bounds. -/
def decode? (bs : Bytes) : Option SeqRange :=
  match bs.span (· ≠ Ascii.colon) with
  | (bound, []) => (Bound.decode? bound).map fun b => ofBounds b b
  | (first, _ :: last) => do return ofBounds (← Bound.decode? first) (← Bound.decode? last)

/-- A range as a text. -/
def text (r : SeqRange) : String := asciiText r.encode

end SeqRange

namespace SequenceSet

/-- The bytes of a set. -/
def encode (set : SequenceSet) : Bytes := [Ascii.comma].intercalate (set.ranges.map SeqRange.encode)

/-- Reads a set. The empty text is no set. -/
def decode? (bs : Bytes) : Option SequenceSet :=
  ((bs.splitOn Ascii.comma).mapM SeqRange.decode?).map ofRanges

/-- A set as a text. -/
def text (set : SequenceSet) : String := asciiText set.encode

/-- Reads a set from a text. -/
def parse (s : String) : Except Error SequenceSet :=
  match decode? (utf8 s) with
  | some set => .ok set
  | none => .error (.invalidSequenceSet s)

end SequenceSet

end ImapSearch
