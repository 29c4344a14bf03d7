import ImapSearch.Bytes
import ImapSearch.Decimal
import ImapSearch.Text.Escaped
import ImapSearch.Text.Lossy

/-!
# ImapSearch.Token

**The tokens of a response.** A response is read token by token. Besides the
five kinds that carry a value of their own (`Token.isScalar`), a token is a
single punctuation byte, the line terminator, or the end of the input.

`Token.kind` forgets what a token carries, and `Token.describe` is the form in
which a message shows a token.
-/

namespace ImapSearch

/-- A token of a response. -/
inductive Token
  /-- A run of atom characters that is neither a number nor `NIL`. -/
  | atom (name : Bytes)
  /-- A run of digits, as a number of 32 bits. -/
  | number (n : Nat)
  /-- The word `NIL`, in any case. -/
  | nil
  /-- A string between double quotes, without its escapes. -/
  | quoted (text : String)
  /-- The data of a literal. -/
  | literal (data : Bytes)
  /-- An opening parenthesis. -/
  | listStart
  /-- A closing parenthesis. -/
  | listEnd
  /-- An opening bracket. -/
  | codeStart
  /-- A closing bracket. -/
  | codeEnd
  /-- One space. -/
  | space
  /-- An asterisk. -/
  | untagged
  /-- A plus sign that opens no atom. -/
  | continuation
  /-- The line terminator. -/
  | lineEnd
  /-- The end of the input. -/
  | endOfInput
deriving DecidableEq, Repr

/-- A token without what it carries. -/
inductive Token.Kind
  | atom | number | nil | quoted | literal | listStart | listEnd | codeStart | codeEnd | space
  | untagged | continuation | lineEnd | endOfInput
deriving DecidableEq, Repr

namespace Token

/-- The kind of a token. -/
def kind : Token → Kind
  | .atom _ => .atom
  | .number _ => .number
  | .nil => .nil
  | .quoted _ => .quoted
  | .literal _ => .literal
  | .listStart => .listStart
  | .listEnd => .listEnd
  | .codeStart => .codeStart
  | .codeEnd => .codeEnd
  | .space => .space
  | .untagged => .untagged
  | .continuation => .continuation
  | .lineEnd => .lineEnd
  | .endOfInput => .endOfInput

/-- Whether the token is a value by itself: a word, a number or a string. -/
def isScalar : Token → Bool
  | .atom _ | .number _ | .nil | .quoted _ | .literal _ => true
  | _ => false

/-- The form in which a message shows the token: its kind, and what it carries in parentheses. The
name of an atom is shown as UTF-8, and the data of a literal byte by byte. -/
def describe : Token → String
  | .atom name => "Atom(" ++ Text.escaped (Text.lossy name) ++ ")"
  | .number n => "Number(" ++ Decimal.text n ++ ")"
  | .nil => "Nil"
  | .quoted text => "Quoted(" ++ Text.escaped text ++ ")"
  | .literal data =>
    "Literal([" ++ ", ".intercalate (data.map fun b => Decimal.text b.toNat) ++ "])"
  | .listStart => "ListStart"
  | .listEnd => "ListEnd"
  | .codeStart => "CodeStart"
  | .codeEnd => "CodeEnd"
  | .space => "Sp"
  | .untagged => "Untagged"
  | .continuation => "Continuation"
  | .lineEnd => "LineEnd"
  | .endOfInput => "End"

end Token

end ImapSearch
