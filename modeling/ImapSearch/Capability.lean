import ImapSearch.Text.UpperCase

/-!
# ImapSearch.Capability

**What a server says that it can do.** Only the capabilities that change how a
search is sent have a constructor of their own; any other keeps the name under
which it was announced.
-/

namespace ImapSearch

/-- A capability of a server. -/
inductive Capability
  /-- Revision 1 of the protocol. -/
  | rev1
  /-- Revision 2 of the protocol, which brings extended results and short literals with it. -/
  | rev2
  /-- Extended search results. -/
  | extendedSearch
  /-- Non-synchronizing literals of any size. -/
  | literalPlus
  /-- Non-synchronizing literals up to a limit. -/
  | literalMinus
  /-- Any other capability, by its name. -/
  | other (name : String)
deriving DecidableEq, Repr

namespace Capability

/-- Reads a capability from its name. The known names may be in any case. -/
def ofText (s : String) : Capability :=
  if Text.isKeyword s "IMAP4REV1" then .rev1
  else if Text.isKeyword s "IMAP4REV2" then .rev2
  else if Text.isKeyword s "ESEARCH" then .extendedSearch
  else if Text.isKeyword s "LITERAL+" then .literalPlus
  else if Text.isKeyword s "LITERAL-" then .literalMinus
  else .other s

/-- The name of the capability. -/
def name : Capability → String
  | .rev1 => "IMAP4rev1"
  | .rev2 => "IMAP4rev2"
  | .extendedSearch => "ESEARCH"
  | .literalPlus => "LITERAL+"
  | .literalMinus => "LITERAL-"
  | .other name => name

/-- The largest literal, in bytes, that a server with `LITERAL-` accepts. -/
def shortLiteral : Nat := 4096

/-- Whether the capability allows extended search results. -/
def allowsExtendedSearch : Capability → Bool
  | .extendedSearch | .rev2 => true
  | _ => false

/-- Whether the capability allows a non-synchronizing literal of `size` bytes. -/
def allowsLiteral (size : Nat) : Capability → Bool
  | .literalPlus => true
  | .literalMinus | .rev2 => size ≤ shortLiteral
  | _ => false

/-- Whether a server with these capabilities answers with extended search results. -/
def supportExtendedSearch (caps : List Capability) : Bool := caps.any allowsExtendedSearch

/-- Whether a server with these capabilities accepts a non-synchronizing literal of `size` bytes. -/
def supportLiteral (caps : List Capability) (size : Nat) : Bool := caps.any (allowsLiteral size)

end Capability

end ImapSearch
