import ImapSearch.Decimal

/-!
# ImapSearch.Tag

**Command tags.** Every command carries a tag, and the server repeats it in the
response that completes the command. A `TagSupply` gives out tags that differ:
its first character, then a number of four digits or more that counts up. The
numbers begin anew after 2^32 tags, when the first of them have long been
answered.
-/

namespace ImapSearch

/-- The tag of a command. -/
structure Tag where
  /-- The tag as it stands in front of the command. -/
  text : String
deriving DecidableEq, Repr

/-- The tags still to be given out. -/
structure TagSupply where
  /-- The first character of every tag. -/
  first : Char := 'A'
  /-- The number of the next tag. -/
  next : Nat := 0
deriving DecidableEq, Repr

namespace TagSupply

/-- How many tags a supply gives out before it begins anew: as many as there are numbers of 32
bits. -/
def period : Nat := 4294967296

/-- The next tag. -/
def tag (supply : TagSupply) : Tag :=
  ⟨String.singleton supply.first ++ asciiText (Decimal.padded 4 supply.next)⟩

/-- The supply without its next tag. -/
def advance (supply : TagSupply) : TagSupply :=
  { supply with next := (supply.next + 1) % period }

/-- The next `count` tags. -/
def take (supply : TagSupply) : Nat → List Tag
  | 0 => []
  | count + 1 => supply.tag :: supply.advance.take count

/-- The supply without its next `count` tags. -/
def drop (supply : TagSupply) : Nat → TagSupply
  | 0 => supply
  | count + 1 => supply.advance.drop count

end TagSupply

end ImapSearch
