import ImapSearch.Bytes

/-!
# ImapSearch.Status

**The status words of a response.** A tagged response completes a command with
one of them; untagged, they open a remark of the server.
-/

namespace ImapSearch

/-- A status that a response reports. -/
inductive Status
  /-- Success, or information. -/
  | ok
  /-- Failure, or a warning. -/
  | no
  /-- A protocol error. -/
  | bad
  /-- A connection that needs no login. -/
  | preauth
  /-- The server ends the connection. -/
  | bye
deriving DecidableEq, Repr

/-- The word of a status, in upper case. -/
def Status.word : Status → Bytes
  | .ok => utf8 "OK"
  | .no => utf8 "NO"
  | .bad => utf8 "BAD"
  | .preauth => utf8 "PREAUTH"
  | .bye => utf8 "BYE"

/-- Reads a status word in any case. -/
def Status.ofWord? (word : Bytes) : Option Status :=
  [.ok, .no, .bad, .preauth, .bye].find? fun s : Status => s.word = upperCase word

end ImapSearch
