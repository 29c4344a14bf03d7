import ImapSearch.Capability

/-!
# ImapSearch.Response.Code

**Response codes.** The text of a status response may begin with a code between
brackets. The code `[CAPABILITY ...]` announces what the server can do, as the
response of that name does; its words are separated by blanks.
-/

namespace ImapSearch

/-- A blank between the words of a response code: space, tab, line feed, form feed or return. -/
def isBlank (c : Char) : Bool :=
  c == ' ' || c == '\t' || c == '\n' || c == '\x0c' || c == '\r'

/-- The words of a text, without the blanks between them. -/
def blankSeparated (cs : List Char) : List (List Char) :=
  (cs.splitOnP isBlank).filter (· ≠ [])

/-- The code at the beginning of a text, without its brackets. -/
def responseCode? (text : String) : Option (List Char) :=
  match text.toList with
  | '[' :: rest =>
    match rest.span (· ≠ ']') with
    | (_, []) => none
    | (code, _ :: _) => some code
  | _ => none

/-- The capabilities that the code at the beginning of a text announces. -/
def announcedCapabilities? (text : String) : Option (List Capability) :=
  match (responseCode? text).map blankSeparated with
  | some (keyword :: names) =>
    if keyword.map Char.toUpper = "CAPABILITY".toList then
      some (names.map fun name => .ofText (String.ofList name))
    else none
  | _ => none

end ImapSearch
