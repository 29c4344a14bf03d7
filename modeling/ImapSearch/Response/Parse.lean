import ImapSearch.Response.Extended
import ImapSearch.Text.Lossy

/-!
# ImapSearch.Response.Parse

**Reading a response.** `Response.parse` reads one complete response, the data
of its literals included, as the framing of the connection delivers it. It takes
the human-readable text of a response as it comes, up to the first line
terminator, and refuses a response that breaks the grammar where its parts
matter to a search.
-/

namespace ImapSearch

namespace Scan

/-! ### Texts -/

/-- Reads the bytes up to the line terminator, or all that are left if there is none, and reads over
the terminator. -/
def line : Scan Bytes := fun c =>
  match splitCrlf c.rest with
  | some (bytes, _) => .ok bytes (c.skip (bytes.length + 2))
  | none => .ok c.rest (c.skip c.rest.length)

/-- Reads a human-readable text, without the space in front of it. -/
def remark : Scan String := do
  let _ ← space
  Text.lossy <$> line

theorem forward_line : line.Forward := by
  intro c
  unfold line
  split <;> exact c.reaches_skip _

theorem forward_remark : remark.Forward :=
  forward_space.bind fun _ => forward_line.map _

/-! ### Tagged responses -/

/-- Reads the status of a tagged response. -/
def status : Scan Status := do
  let name ← atom
  match Status.ofWord? name with
  | some s => return s
  | none => fail (.invalidStatus name)

/-- Reads a tagged response after its tag. -/
def tagged (tag : Tag) : Scan Response := do
  expectSpace
  let s ← status
  return .tagged tag s (← remark)

theorem forward_status : status.Forward := by
  refine forward_atom.bind fun name => ?_
  split
  · exact forward_pure _
  · exact forward_fail _

theorem forward_tagged (tag : Tag) : (tagged tag).Forward :=
  forward_expectSpace.bind fun _ => forward_status.bind fun _ => forward_remark.bind fun _ =>
    forward_pure _

/-! ### Untagged responses -/

/-- Reads the name of a capability. -/
def capability : Scan Capability := do
  match ← token with
  | .atom name => return .ofText (asciiText name)
  | .number n => return .ofText (Decimal.text n)
  | t => fail (.unexpectedCapability t)

theorem forward_capability : capability.Forward := by
  refine forward_token.bind fun t => ?_
  split
  · exact forward_pure _
  · exact forward_pure _
  · exact forward_fail _

/-- Reads a list of capabilities. -/
def capabilities : Scan (List Capability) :=
  spaced (some <$> capability) (forward_capability.map _)

/-- Reads a number, unless the line ends. -/
def numberUnlessLineEnds : Scan (Option Nat) := do
  if ← lineEnds then return none else some <$> number

theorem forward_numberUnlessLineEnds : numberUnlessLineEnds.Forward := by
  refine forward_lineEnds.bind fun ends => ?_
  split
  · exact forward_pure _
  · exact forward_number.map _

/-- Reads the numbers that a search found, up to the end of the line. A space may stand in front of
the line terminator. -/
def searchNums : Scan (List Nat) := do
  let nums ← spaced numberUnlessLineEnds forward_numberUnlessLineEnds
  expectLineEnd "SEARCH"
  return nums

/-- Reads an untagged response after its keyword, which is given in upper case. -/
def untaggedBody (keyword : Bytes) : Scan Untagged :=
  match Status.ofWord? keyword with
  | some s => .remark s <$> remark
  | none =>
    if keyword = utf8 "CAPABILITY" then .capabilities <$> capabilities
    else if keyword = utf8 "SEARCH" then .search <$> searchNums
    else if keyword = utf8 "ESEARCH" then extendedSearch
    else (fun _ => .other (asciiText keyword)) <$> line

/-- Reads news about a number after that number. -/
def numbered (n : Nat) : Scan Untagged := do
  expectSpace
  let keyword ← atom
  (fun _ => .numbered n (asciiText (upperCase keyword))) <$> line

/-- Reads an untagged response after its asterisk. -/
def untagged : Scan Untagged := do
  expectSpace
  match ← token with
  | .atom name => untaggedBody (upperCase name)
  | .number n => numbered n
  | t => fail (.unexpectedUntagged t)

theorem forward_searchNums : searchNums.Forward :=
  (forward_spaced _ _).bind fun _ => (forward_expectLineEnd _).bind fun _ => forward_pure _

theorem forward_untaggedBody (keyword : Bytes) : (untaggedBody keyword).Forward := by
  unfold untaggedBody
  split
  · exact forward_remark.map _
  · split
    · exact (forward_spaced _ _).map _
    · split
      · exact forward_searchNums.map _
      · split
        · exact forward_extendedSearch
        · exact forward_line.map _

theorem forward_numbered (n : Nat) : (numbered n).Forward :=
  forward_expectSpace.bind fun _ => forward_atom.bind fun _ => forward_line.map _

theorem forward_untagged : untagged.Forward := by
  refine forward_expectSpace.bind fun _ => forward_token.bind fun t => ?_
  split
  · exact forward_untaggedBody _
  · exact forward_numbered _
  · exact forward_fail _

/-! ### Responses -/

/-- Reads the text of a request to go on, which may be absent. -/
def continuation : Scan Response :=
  (fun text => .continuation (if text = "" then none else some text)) <$> remark

/-- Fails because the input begins with no response. The fault counts as one of the first byte. -/
def failResponse {α : Type} (t : Token) : Scan α :=
  fun c => .error (.malformed 0 (.expectedResponse t)) c

/-- Reads a response. -/
def response : Scan Response := do
  match ← token with
  | .untagged => .untagged <$> untagged
  | .continuation => continuation
  | .atom name => tagged ⟨asciiText name⟩
  | t => failResponse t

theorem forward_response : response.Forward := by
  refine forward_token.bind fun t => ?_
  split
  · exact forward_untagged.map _
  · exact forward_remark.map _
  · exact forward_tagged _
  · exact fun c => .refl c

end Scan

/-- Reads one complete response. What follows the end of the response is not looked at. -/
def Response.parse (input : Bytes) : Except Error Response :=
  match Scan.response (Cursor.start input) with
  | .ok r _ => .ok r
  | .error e _ => .error e

end ImapSearch
