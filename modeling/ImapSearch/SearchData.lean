import ImapSearch.SequenceSet

/-!
# ImapSearch.SearchData

**What a search found.** A plain result fills `all` alone. The lowest and the
highest number and the count are there only if the search asked for them and the
server answered with an extended result.
-/

namespace ImapSearch

/-- The result of a search. -/
structure SearchData where
  /-- Every number found. -/
  all : SequenceSet := {}
  /-- Whether the numbers are UIDs. -/
  uid : Bool := false
  /-- The lowest number found. -/
  min : Option Nat := none
  /-- The highest number found. -/
  max : Option Nat := none
  /-- How many messages were found. -/
  count : Option Nat := none
deriving DecidableEq, Repr, Inhabited

namespace SearchData

/-- The numbers found, in ascending order. There are none if the set reaches to `*`, which no
result of a search should do. -/
def allNums (data : SearchData) : List Nat := data.all.nums?.getD []

/-- The result with further numbers found. -/
def addNums (data : SearchData) (ns : List Nat) : SearchData :=
  { data with all := ns.foldl SequenceSet.addNum data.all }

end SearchData

end ImapSearch
