/-!
# ImapSearch.Settings

**What a client can be set to.** The first character of its tags, and two limits
that keep a server from filling the memory: how long a line of a response may
be, and how large a literal.
-/

namespace ImapSearch

/-- The settings of a client. -/
structure Settings where
  /-- The first character of every tag. -/
  tagStart : Char := 'A'
  /-- The largest number of bytes in a line of a response, line terminator excluded. -/
  maxLine : Nat := 1048576
  /-- The largest number of bytes in a literal of a response. -/
  maxLiteral : Nat := 104857600
deriving DecidableEq, Repr

/-- Whether nothing differs from the settings that a client has by itself. -/
def Settings.isDefault (s : Settings) : Bool := s = {}

end ImapSearch
