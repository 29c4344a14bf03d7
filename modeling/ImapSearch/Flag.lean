import ImapSearch.Text.UpperCase

/-!
# ImapSearch.Flag

**Message flags.** Six flags belong to the protocol (`SystemFlag`): their names
begin with a backslash, and a search has a word of its own for each of them, set
or not set. Any other flag is a keyword, and keeps the name that it was given.
-/

namespace ImapSearch

/-- A flag that the protocol defines. -/
inductive SystemFlag
  | seen | answered | flagged | deleted | draft | recent
deriving DecidableEq, Repr

namespace SystemFlag

/-- The name of the flag. -/
def name : SystemFlag → String
  | .seen => "\\Seen"
  | .answered => "\\Answered"
  | .flagged => "\\Flagged"
  | .deleted => "\\Deleted"
  | .draft => "\\Draft"
  | .recent => "\\Recent"

/-- The search word for messages that have the flag. -/
def setKey : SystemFlag → String
  | .seen => "SEEN"
  | .answered => "ANSWERED"
  | .flagged => "FLAGGED"
  | .deleted => "DELETED"
  | .draft => "DRAFT"
  | .recent => "RECENT"

/-- The search word for messages that do not have the flag. A message that is not recent is old. -/
def unsetKey : SystemFlag → String
  | .seen => "UNSEEN"
  | .answered => "UNANSWERED"
  | .flagged => "UNFLAGGED"
  | .deleted => "UNDELETED"
  | .draft => "UNDRAFT"
  | .recent => "OLD"

end SystemFlag

/-- A message flag. -/
inductive Flag
  /-- A flag that the protocol defines. -/
  | system (flag : SystemFlag)
  /-- Any other flag, by its name. -/
  | keyword (name : String)
deriving DecidableEq, Repr

namespace Flag

/-- Reads a flag from its name. The names of the system flags may be in any case. -/
def ofText (s : String) : Flag :=
  if Text.isKeyword s "\\SEEN" then .system .seen
  else if Text.isKeyword s "\\ANSWERED" then .system .answered
  else if Text.isKeyword s "\\FLAGGED" then .system .flagged
  else if Text.isKeyword s "\\DELETED" then .system .deleted
  else if Text.isKeyword s "\\DRAFT" then .system .draft
  else if Text.isKeyword s "\\RECENT" then .system .recent
  else .keyword s

/-- The name of the flag. -/
def name : Flag → String
  | .system flag => flag.name
  | .keyword name => name

/-- The search word for messages that have the flag, if it has one of its own. -/
def setKey? : Flag → Option String
  | .system flag => some flag.setKey
  | .keyword _ => none

/-- The search word for messages that do not have the flag, if it has one of its own. -/
def unsetKey? : Flag → Option String
  | .system flag => some flag.unsetKey
  | .keyword _ => none

end Flag

end ImapSearch
