import ImapSearch.Text.Printable

/-!
# ImapSearch.Text.Escaped

**Texts shown in messages.** An error message shows a text from the other side
between double quotes, so that its ends and its invisible characters can be
seen. NUL, tab, return, line feed, backslash and the double quote have short
escapes, any other character that is not printable is shown by its number in
lower-case hexadecimal digits, and the rest is shown as it is.
-/

namespace ImapSearch.Text

/-- One character of a text between double quotes. -/
def escapeChar (c : Char) : String :=
  if c = '\x00' then "\\0"
  else if c = '\t' then "\\t"
  else if c = '\r' then "\\r"
  else if c = '\n' then "\\n"
  else if c = '\\' then "\\\\"
  else if c = '"' then "\\\""
  else if isPrintable c then String.singleton c
  else "\\u\x7b" ++ String.ofList (Nat.toDigits 16 c.toNat) ++ "\x7d"

/-- The text between double quotes, with the characters that would not show escaped. -/
def escaped (s : String) : String :=
  "\"" ++ String.join (s.toList.map escapeChar) ++ "\""

end ImapSearch.Text
