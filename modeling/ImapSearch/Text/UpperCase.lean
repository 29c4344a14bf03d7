/-!
# ImapSearch.Text.UpperCase

**Comparing a text with a keyword, whatever its case.** The names of flags and
capabilities are ASCII words that are compared after full upper-casing. So a
text can match a keyword through a character outside ASCII whose upper-case
form lies in ASCII, such as the long s, the dotless i and the ligatures. Any
character whose upper-case form is not ASCII stands for itself here: it can
match no keyword, whichever of its forms is taken.
-/

namespace ImapSearch.Text

/-- The upper-case form of a character where that form is ASCII, else the character. -/
def upperChar (c : Char) : List Char :=
  match c with
  | 'ß' => ['S', 'S']
  | 'ı' => ['I']
  | 'ſ' => ['S']
  | 'ﬀ' => ['F', 'F']
  | 'ﬁ' => ['F', 'I']
  | 'ﬂ' => ['F', 'L']
  | 'ﬃ' => ['F', 'F', 'I']
  | 'ﬄ' => ['F', 'F', 'L']
  | 'ﬅ' => ['S', 'T']
  | 'ﬆ' => ['S', 'T']
  | c => [c.toUpper]

/-- Whether the text, in upper case, is the keyword. -/
def isKeyword (s : String) (keyword : String) : Bool :=
  s.toList.flatMap upperChar == keyword.toList

end ImapSearch.Text
