import ImapSearch.Bytes
import ImapSearch.Decimal

/-!
# ImapSearch.Text.Argument

**String arguments of a command.** A text is sent between double quotes, with a
backslash in front of every double quote and every backslash. A line break, a
NUL or a byte outside ASCII cannot stand between quotes; a text that has one is
sent as a non-synchronizing literal, which announces its size in bytes and then
carries the bytes as they are.
-/

namespace ImapSearch.Text

/-- Whether the byte cannot stand in a quoted string. -/
def needsLiteral (b : UInt8) : Bool :=
  b == Ascii.cr || b == Ascii.lf || b == Ascii.nul || Ascii.del < b

/-- Whether the text is sent as a literal. -/
def isLiteral (s : String) : Bool := (utf8 s).any needsLiteral

/-- The size in bytes of the literal that the text is sent as, if it is sent as one. -/
def literalSize? (s : String) : Option Nat :=
  if isLiteral s then some (utf8 s).length else none

/-- A byte between double quotes. -/
def quoteByte (b : UInt8) : Bytes :=
  if b = Ascii.quote ∨ b = Ascii.backslash then [Ascii.backslash, b] else [b]

/-- Bytes between double quotes. -/
def quoted (bs : Bytes) : Bytes := Ascii.quote :: bs.flatMap quoteByte ++ [Ascii.quote]

/-- Bytes as a non-synchronizing literal. -/
def literal (bs : Bytes) : Bytes :=
  Ascii.openBrace :: Decimal.encode bs.length ++ [Ascii.plus, Ascii.closeBrace] ++ crlf ++ bs

/-- The text as an argument of a command. -/
def argument (s : String) : Bytes :=
  if isLiteral s then literal (utf8 s) else quoted (utf8 s)

end ImapSearch.Text
