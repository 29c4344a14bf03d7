import ImapSearch.Date
import ImapSearch.Flag
import ImapSearch.SequenceSet

/-!
# ImapSearch.Criteria

**What a search looks for.** A `Criteria` is a tree. Each node holds
`Conditions`, all of which a message has to meet; subtrees that it must not
match; and pairs of subtrees, of which it has to match one or the other. So any
combination of conditions can be built, and the node without any of them matches
every message.
-/

namespace ImapSearch

/-- A header field and a text that has to occur in it. -/
structure HeaderField where
  /-- The name of the field. -/
  name : String
  /-- The text that has to occur in the value of the field. -/
  value : String
deriving DecidableEq, Repr

/-- Conditions on a message that have to hold together. -/
structure Conditions where
  /-- The sequence number lies in this set, unless the set is empty. -/
  seqNums : SequenceSet := {}
  /-- The UID lies in this set, unless the set is empty. -/
  uids : SequenceSet := {}
  /-- The message arrived on this day or later. -/
  since : Option Date := none
  /-- The message arrived before this day. -/
  before : Option Date := none
  /-- The message is dated on this day or later. -/
  sentSince : Option Date := none
  /-- The message is dated before this day. -/
  sentBefore : Option Date := none
  /-- Texts that occur in header fields. -/
  headers : List HeaderField := []
  /-- Texts that occur in the body. -/
  body : List String := []
  /-- Texts that occur in the header or in the body. -/
  text : List String := []
  /-- Flags that the message has. -/
  flags : List Flag := []
  /-- Flags that the message does not have. -/
  notFlags : List Flag := []
  /-- The message is larger than this, in bytes; zero sets no bound. -/
  larger : Nat := 0
  /-- The message is smaller than this, in bytes; zero sets no bound. -/
  smaller : Nat := 0
deriving DecidableEq, Repr, Inhabited

/-- A tree of conditions. -/
structure Criteria where
  /-- The conditions of this node, which all have to hold. -/
  conditions : Conditions := {}
  /-- Subtrees none of which may match. -/
  excluded : List Criteria := []
  /-- Pairs of subtrees; of each pair one at least has to match. -/
  alternatives : List (Criteria × Criteria) := []
deriving Repr, Inhabited

namespace Criteria

/-- Every message. -/
def everything : Criteria := {}

/-- The messages that have a text in a header field. -/
def header (name value : String) : Criteria := { conditions := { headers := [⟨name, value⟩] } }

/-- The messages that have a flag. -/
def flagged (flag : Flag) : Criteria := { conditions := { flags := [flag] } }

/-- The messages that arrived on a day. On the last day of the calendar there is no upper bound. -/
def on (day : Date) : Criteria := { conditions := { since := some day, before := day.next? } }

/-- Whether the criteria hold nothing, and so match every message. -/
def isEmpty (c : Criteria) : Bool :=
  decide (c.conditions = {}) && c.excluded.isEmpty && c.alternatives.isEmpty

theorem isEmpty_iff {c : Criteria} : c.isEmpty ↔ c = everything := by
  obtain ⟨conditions, excluded, alternatives⟩ := c
  simp [isEmpty, everything, and_assoc]

end Criteria

end ImapSearch
