import ImapSearch.Criteria
import ImapSearch.SequenceSet.Text
import ImapSearch.Text.Argument

/-!
# ImapSearch.Criteria.Encode

**Criteria on the wire.** A node is one parenthesised search key: its items with
spaces between them, in a fixed order, so that the same criteria always give the
same bytes. A node without items is written `(ALL)`.

The module also says which literals an encoding holds
(`Criteria.literalSizes`), since a server may not accept them.
-/

namespace ImapSearch

/-- An item of a search key: a word, a space, and what belongs to it. -/
def searchItem (word : String) (argument : Bytes) : Bytes :=
  utf8 word ++ Ascii.space :: argument

/-! ### Dates -/

/-- The day, if the bounds leave exactly one. -/
def singleDay? : Option Date → Option Date → Option Date
  | some since, some before => if since.next? = some before then some since else none
  | _, _ => none

/-- The items for two bounds on a day: one item where they leave a single day, else one for each. -/
def dateItems (on since before : String) (lower upper : Option Date) : List Bytes :=
  match singleDay? lower upper with
  | some day => [searchItem on day.encode]
  | none =>
    lower.toList.map (fun day => searchItem since day.encode)
      ++ upper.toList.map (fun day => searchItem before day.encode)

/-! ### Header fields and flags -/

/-- The header fields that have a search word of their own. -/
def headerWords : List Bytes := ["BCC", "CC", "FROM", "SUBJECT", "TO"].map utf8

/-- The item for a header field. -/
def HeaderField.item (field : HeaderField) : Bytes :=
  let word := upperCase (utf8 field.name)
  if word ∈ headerWords then word ++ Ascii.space :: Text.argument field.value
  else searchItem "HEADER" (Text.argument field.name ++ Ascii.space :: Text.argument field.value)

/-- The item for a flag that is set. -/
def Flag.setItem (flag : Flag) : Bytes :=
  match flag.setKey? with
  | some word => utf8 word
  | none => searchItem "KEYWORD" (utf8 flag.name)

/-- The item for a flag that is not set. -/
def Flag.unsetItem (flag : Flag) : Bytes :=
  match flag.unsetKey? with
  | some word => utf8 word
  | none => searchItem "UNKEYWORD" (utf8 flag.name)

/-! ### Conditions -/

namespace Conditions

/-- The items of the conditions, in the order in which they are written. -/
def items (c : Conditions) : List Bytes :=
  (if c.seqNums.isEmpty then [] else [c.seqNums.encode])
    ++ (if c.uids.isEmpty then [] else [searchItem "UID" c.uids.encode])
    ++ dateItems "ON" "SINCE" "BEFORE" c.since c.before
    ++ dateItems "SENTON" "SENTSINCE" "SENTBEFORE" c.sentSince c.sentBefore
    ++ c.headers.map HeaderField.item
    ++ c.body.map (fun s => searchItem "BODY" (Text.argument s))
    ++ c.text.map (fun s => searchItem "TEXT" (Text.argument s))
    ++ c.flags.map Flag.setItem
    ++ c.notFlags.map Flag.unsetItem
    ++ (if c.larger = 0 then [] else [searchItem "LARGER" (Decimal.encode c.larger)])
    ++ (if c.smaller = 0 then [] else [searchItem "SMALLER" (Decimal.encode c.smaller)])

/-- The texts of the conditions, in the order in which they are written. -/
def strings (c : Conditions) : List String :=
  c.headers.flatMap (fun field => [field.name, field.value]) ++ c.body ++ c.text

/-- The sizes of the literals of the conditions. -/
def literalSizes (c : Conditions) : List Nat := c.strings.filterMap Text.literalSize?

end Conditions

/-! ### Trees -/

/-- A parenthesised search key of the given items. -/
def searchKey (items : List Bytes) : Bytes :=
  Ascii.openParen :: (if items = [] then utf8 "ALL" else [Ascii.space].intercalate items)
    ++ [Ascii.closeParen]

mutual

/-- Criteria as one parenthesised search key. -/
def Criteria.encode : Criteria → Bytes
  | ⟨conditions, excluded, alternatives⟩ =>
    searchKey (conditions.items ++ excludedItems excluded ++ alternativeItems alternatives)

/-- The items for subtrees that must not match. -/
def excludedItems : List Criteria → List Bytes
  | [] => []
  | c :: rest => searchItem "NOT" c.encode :: excludedItems rest

/-- The items for pairs of subtrees. -/
def alternativeItems : List (Criteria × Criteria) → List Bytes
  | [] => []
  | (left, right) :: rest =>
    searchItem "OR" (left.encode ++ Ascii.space :: right.encode) :: alternativeItems rest

end

mutual

/-- The sizes of the literals in the encoding of criteria, in the order in which they are
written. -/
def Criteria.literalSizes : Criteria → List Nat
  | ⟨conditions, excluded, alternatives⟩ =>
    conditions.literalSizes ++ excludedLiteralSizes excluded
      ++ alternativeLiteralSizes alternatives

/-- The sizes of the literals of subtrees that must not match. -/
def excludedLiteralSizes : List Criteria → List Nat
  | [] => []
  | c :: rest => c.literalSizes ++ excludedLiteralSizes rest

/-- The sizes of the literals of pairs of subtrees. -/
def alternativeLiteralSizes : List (Criteria × Criteria) → List Nat
  | [] => []
  | (left, right) :: rest =>
    left.literalSizes ++ right.literalSizes ++ alternativeLiteralSizes rest

end

/-- The size of the largest literal in the encoding of criteria, if there is a literal. -/
def Criteria.largestLiteral? (c : Criteria) : Option Nat := c.literalSizes.max?

end ImapSearch
