import ImapSearch.Token

/-!
# ImapSearch.Error

**What can go wrong, by cause.** `Fault` lists the ways in which a response can
break the grammar; `Error` adds to them the answers by which a server rejects or
ends a search, the ways in which a connection can end, and the limits that a
response or a search can exceed. The wording lies in `Fault.message` and
`Error.message` alone.
-/

namespace ImapSearch

/-! ### Faults in a response -/

/-- A way in which a response breaks the grammar. -/
inductive Fault
  /-- The byte begins no token. -/
  | unexpectedByte (b : UInt8)
  /-- The digits write a number that does not fit 32 bits. -/
  | numberTooLarge
  /-- A backslash in a quoted string escapes neither a double quote nor a backslash. -/
  | invalidEscape
  /-- The line or the input ends inside a quoted string. -/
  | unterminatedQuoted
  /-- The content of a quoted string is not UTF-8. -/
  | quotedNotUtf8
  /-- A literal header has no digits, or its size does not fit 64 bits. -/
  | literalSize
  /-- The size of a literal is not followed by its closing brace. -/
  | literalBrace
  /-- A literal header is not followed by the line terminator. -/
  | literalLine
  /-- The input ends inside the data of a literal. -/
  | literalIncomplete
  /-- The data of a literal stand for a text but are not UTF-8. -/
  | literalNotUtf8
  /-- Another kind of token was due. -/
  | expectedToken (expected got : Token)
  /-- A space was due. -/
  | expectedSpace
  /-- A word, a number or a string was due. -/
  | expectedString (got : Token)
  /-- A number was due. -/
  | expectedNumber (got : Token)
  /-- A word was due. -/
  | expectedAtom (got : Token)
  /-- A value or a parenthesised list of values was due. -/
  | expectedValue (got : Token)
  /-- A sequence set was due. -/
  | expectedSet (got : Token)
  /-- A response begins with neither an asterisk, a plus sign nor a tag. -/
  | expectedResponse (got : Token)
  /-- Neither a keyword nor a number follows the asterisk. -/
  | unexpectedUntagged (got : Token)
  /-- A list of capabilities holds something other than words and numbers. -/
  | unexpectedCapability (got : Token)
  /-- A tagged response has a status that does not exist. -/
  | invalidStatus (word : Bytes)
  /-- The correlator of an extended result has another name than `TAG`. -/
  | correlatorName (word : Bytes)
  /-- A set of messages is given as the number zero. -/
  | numberZero
  /-- The response goes on where it should have ended. -/
  | trailingData (keyword : String)
deriving DecidableEq, Repr

/-- Two hexadecimal digits, in lower case. -/
def hexByte (b : UInt8) : String :=
  String.ofList [Nat.digitChar (b.toNat / 16), Nat.digitChar (b.toNat % 16)]

/-- The wording of a fault. -/
def Fault.message : Fault → String
  | .unexpectedByte b => "Unexpected character: 0x" ++ hexByte b
  | .numberTooLarge => "Number too large"
  | .invalidEscape => "Invalid escape in quoted string"
  | .unterminatedQuoted => "Unterminated quoted string"
  | .quotedNotUtf8 => "Invalid UTF-8 in quoted string"
  | .literalSize => "Invalid literal size"
  | .literalBrace => "Expected \x7d after literal size"
  | .literalLine => "Expected CRLF after literal size"
  | .literalIncomplete => "Incomplete literal data"
  | .literalNotUtf8 => "Invalid UTF-8 in literal"
  | .expectedToken expected got => "Expected " ++ expected.describe ++ ", got " ++ got.describe
  | .expectedSpace => "Expected space"
  | .expectedString got => "Expected astring, got " ++ got.describe
  | .expectedNumber got => "Expected number, got " ++ got.describe
  | .expectedAtom got => "Expected atom, got " ++ got.describe
  | .expectedValue got => "Expected value, got " ++ got.describe
  | .expectedSet got => "Expected sequence set, got " ++ got.describe
  | .expectedResponse got => "Expected *, +, or tag, got " ++ got.describe
  | .unexpectedUntagged got => "Unexpected token in untagged response: " ++ got.describe
  | .unexpectedCapability got => "Unexpected token in CAPABILITY: " ++ got.describe
  | .invalidStatus word => "Invalid status: " ++ asciiText word
  | .correlatorName word =>
    "in search-correlator: name must be TAG, but got " ++ Text.escaped (asciiText word)
  | .numberZero => "Invalid message number 0"
  | .trailingData keyword => "Unexpected data after " ++ keyword ++ " response"

/-! ### Errors -/

/-- Why a search, a response or a connection fails. -/
inductive Error
  /-- The stream ended where a line was due. -/
  | connectionClosed
  /-- The stream ended inside the data of a literal. -/
  | streamTruncated
  /-- A response breaks the grammar; the position is where reading stopped. -/
  | malformed (position : Nat) (fault : Fault)
  /-- The text is no sequence set. -/
  | invalidSequenceSet (text : String)
  /-- The server could not carry out the command. -/
  | no (text : String)
  /-- The server could not understand the command. -/
  | bad (text : String)
  /-- The server says that it ends the connection. -/
  | bye (text : String)
  /-- The connection ended before the command was completed. -/
  | connectionLost
  /-- A line of a response is longer than the limit. -/
  | lineTooLong
  /-- A literal of a response is announced with a size above the limit. -/
  | literalTooLarge (size limit : Nat)
  /-- A search holds a text that needs a literal which the server does not accept. -/
  | literalRefused (size : Nat)
deriving DecidableEq, Repr

namespace Error

/-- The wording of an error. -/
def message : Error → String
  | .connectionClosed => "I/O error: connection closed"
  | .streamTruncated => "I/O error: early eof"
  | .malformed position fault =>
    "Protocol error at position " ++ Decimal.text position ++ ": " ++ fault.message
  | .invalidSequenceSet text => "Invalid sequence set: " ++ text
  | .no text => "Server returned NO: " ++ text
  | .bad text => "Server returned BAD: " ++ text
  | .bye text => "Server sent BYE: " ++ text
  | .connectionLost => "Connection lost"
  | .lineTooLong => "Protocol error: line too long"
  | .literalTooLarge size limit =>
    "Protocol error: literal too large: " ++ Decimal.text size ++ " bytes (max "
      ++ Decimal.text limit ++ ")"
  | .literalRefused size =>
    "Protocol error: search needs a " ++ Decimal.text size
      ++ "-byte non-synchronizing literal, server lacks LITERAL+"

/-- Whether the server rejected the command and stays ready for others. -/
def isRejection : Error → Bool
  | .no _ | .bad _ => true
  | _ => false

end Error

end ImapSearch
