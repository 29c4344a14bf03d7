import ImapSearch.Capability
import ImapSearch.SearchData
import ImapSearch.Status
import ImapSearch.Tag

/-!
# ImapSearch.Response

**What a server says.** A response completes a command under its tag, asks for
more of a command, or stands by itself. Of the responses that stand by
themselves, those that matter to a search are held in full; of the others, their
keyword.
-/

namespace ImapSearch

/-- A response that belongs to no command in particular. -/
inductive Untagged
  /-- A remark of the server with a status. -/
  | remark (status : Status) (text : String)
  /-- What the server can do. -/
  | capabilities (caps : List Capability)
  /-- The numbers that a search found. -/
  | search (nums : List Nat)
  /-- The extended result of a search, with the tag of its command if the server gives it. -/
  | extendedSearch (tag : Option Tag) (data : SearchData)
  /-- News about a number, such as a count of messages. -/
  | numbered (number : Nat) (keyword : String)
  /-- Any other response. -/
  | other (keyword : String)
deriving DecidableEq, Repr

/-- A response of a server. -/
inductive Response
  /-- The completion of the command with this tag. -/
  | tagged (tag : Tag) (status : Status) (text : String)
  /-- A response that belongs to no command in particular. -/
  | untagged (data : Untagged)
  /-- A request to go on with a command. -/
  | continuation (text : Option String)
deriving DecidableEq, Repr

/-- The tag by which an extended result names its search. An empty tag names none. -/
def correlator? (tag : Option Tag) : Option Tag := tag.filter (·.text ≠ "")

end ImapSearch
