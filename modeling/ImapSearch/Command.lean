import ImapSearch.Criteria.Encode
import ImapSearch.Tag

/-!
# ImapSearch.Command

**Search commands.** A command asks for the messages that match criteria, by
sequence number or by UID, and may ask for a summary of them in place of the
plain list. On the wire it is one line, the data of its literals apart, and the
line begins with the tag of the command.
-/

namespace ImapSearch

/-- How a search names the messages that it finds. -/
inductive SearchKind
  /-- By sequence number. -/
  | search
  /-- By UID. -/
  | uidSearch
deriving DecidableEq, Repr

namespace SearchKind

/-- The kind of a search, from whether it asks for UIDs. -/
def ofUid (uid : Bool) : SearchKind := if uid then .uidSearch else .search

/-- Whether the search asks for UIDs. -/
def isUid : SearchKind → Bool
  | .search => false
  | .uidSearch => true

/-- The words of the command. -/
def name : SearchKind → String
  | .search => "SEARCH"
  | .uidSearch => "UID SEARCH"

end SearchKind

/-- A part of the result that a search can ask for. -/
inductive ReturnOption
  /-- The lowest number found. -/
  | min
  /-- The highest number found. -/
  | max
  /-- All numbers found, as a sequence set. -/
  | all
  /-- How many messages were found. -/
  | count
deriving DecidableEq, Repr

/-- The word of a part of the result. -/
def ReturnOption.name : ReturnOption → String
  | .min => "MIN"
  | .max => "MAX"
  | .all => "ALL"
  | .count => "COUNT"

/-- A search command without its tag. -/
structure Command where
  /-- What the search looks for. -/
  criteria : Criteria
  /-- The parts of the result that it asks for; none asks for the plain list. -/
  options : List ReturnOption
  /-- How it names the messages that it finds. -/
  kind : SearchKind
deriving Repr

namespace Command

/-- The request for parts of the result, with a space in front. -/
def returnClause (options : List ReturnOption) : Bytes :=
  if options = [] then []
  else utf8 " RETURN (" ++ [Ascii.space].intercalate (options.map fun o => utf8 o.name)
    ++ [Ascii.closeParen]

/-- The bytes of the command under a tag, line terminator included. -/
def encode (c : Command) (tag : Tag) : Bytes :=
  utf8 tag.text ++ Ascii.space :: utf8 c.kind.name ++ returnClause c.options
    ++ Ascii.space :: c.criteria.encode ++ crlf

end Command

end ImapSearch
