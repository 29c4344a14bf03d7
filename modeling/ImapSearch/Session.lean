import ImapSearch.InFlight
import ImapSearch.Response.Code
import ImapSearch.Response.Parse

/-!
# ImapSearch.Session

**A search session, apart from its connection.** A session gives every search a
tag, encodes it, and keeps it in flight; it reads the responses of the server
and applies them to the searches in flight. It holds no socket: what is to be
sent is a value, and so is what was received.

A search may hold texts that have to be sent as literals. If the server has said
what it can do, and does not accept a literal of that size, the search is
refused: it takes up a tag, but is neither sent nor in flight. As long as the
server has said nothing, every search is sent.
-/

namespace ImapSearch

/-- The state of a session. -/
structure Session where
  /-- The tags still to be given out. -/
  tags : TagSupply := {}
  /-- The searches in flight. -/
  inFlight : InFlight := {}
  /-- What the server said last that it can do. -/
  capabilities : List Capability := []

/-- A search that was issued. -/
structure Issued where
  /-- The tag of the search. -/
  tag : Tag
  /-- The bytes to be sent, absent if the search was refused. -/
  sent : Option Bytes
deriving DecidableEq, Repr

namespace Session

/-- A session whose tags begin with the given character. -/
def withTags (first : Char) : Session := { tags := { first } }

/-! ### Issuing searches -/

/-- The size of the largest literal of a search, if the server is known not to accept it. -/
def refusedLiteral? (s : Session) (command : Command) : Option Nat :=
  command.criteria.largestLiteral?.filter fun size =>
    !s.capabilities.isEmpty && !Capability.supportLiteral s.capabilities size

/-- Issues a search under the next tag. -/
def issue (s : Session) (command : Command) : Session × Issued :=
  let tag := s.tags.tag
  let s' := { s with tags := s.tags.advance }
  match s.refusedLiteral? command with
  | some size => ({ s' with inFlight := s.inFlight.refuse (.literalRefused size) }, ⟨tag, none⟩)
  | none =>
    ({ s' with inFlight := s.inFlight.register tag command.kind },
      ⟨tag, some (command.encode tag)⟩)

/-! ### Applying responses -/

/-- What a change of the searches in flight makes of the session; without a change, nothing. -/
def update (s : Session) (change : InFlight → Option InFlight) : Session :=
  { s with inFlight := (change s.inFlight).getD s.inFlight }

/-- Applies an untagged response. -/
def applyUntagged (s : Session) : Untagged → Session
  | .search nums => s.update (·.accumulate? nums)
  | .extendedSearch tag data => s.update (·.replace? (correlator? tag) data)
  | .capabilities caps => { s with capabilities := caps }
  | .remark .ok text | .remark .preauth text =>
    { s with capabilities := (announcedCapabilities? text).getD s.capabilities }
  | .remark .bye text => { s with inFlight := s.inFlight.failAll (.bye text) }
  | .remark .no _ | .remark .bad _ | .numbered _ _ | .other _ => s

/-- Applies a response. -/
def apply (s : Session) : Response → Session
  | .tagged tag status text => s.update (·.complete? tag status text)
  | .untagged data => s.applyUntagged data
  | .continuation _ => s

/-- Reads one complete response and applies it. A response that breaks the grammar changes
nothing. -/
def receive (s : Session) (input : Bytes) : Session × Except Error Response :=
  match Response.parse input with
  | .ok response => (s.apply response, .ok response)
  | .error e => (s, .error e)

/-! ### The end of the connection -/

/-- Ends the session's connection. -/
def close (s : Session) : Session := { s with inFlight := s.inFlight.close }

/-- Whether the connection has ended. -/
def isClosed (s : Session) : Bool := s.inFlight.closed

/-- The caller of a search no longer waits for it. -/
def abandon (s : Session) (id : Nat) : Session := { s with inFlight := s.inFlight.abandon id }

end Session

end ImapSearch
