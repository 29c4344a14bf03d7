import ImapSearch.Proofs.Decimal
import ImapSearch.Proofs.SearchKey
import ImapSearch.Scan.Token
import ImapSearch.SequenceSet.Text

/-!
# ImapSearch.Proofs.SearchKey.Read

**Search keys as a server reads them.** `SearchKey.read` reads one search key
from the front of some bytes and gives the bytes that follow it. It reads the
whole of the standard grammar, in which a key can be written in several ways:
words in any case, strings as atoms, quoted strings or literals, dates with and
without quotes.

* `Form` — what a word of the grammar wants behind it; `forms` lists the words.
* `opening` — the beginning of a key, which is the whole of it unless other keys
  follow: behind `NOT` and `OR`, and in parentheses.
* `read` and `readAll` — the recursion over keys. Every key takes up a byte at
  least, and so the recursion ends.

Two points of the grammar are parameters (`Grammar`): the bytes that the name of
a keyword is made of, and the years that a date can have. `Grammar.standard`
holds atom characters and the years of four digits.
-/

namespace ImapSearch

/-- Whether the byte can be part of an atom of the standard grammar: printable ASCII without the
bytes that are reserved, of which the backslash is one. -/
def isAtomChar (b : UInt8) : Bool :=
  Ascii.space < b && b < Ascii.del
    && b ∉ [Ascii.openParen, Ascii.closeParen, Ascii.openBrace, Ascii.percent, Ascii.star,
      Ascii.quote, Ascii.backslash, Ascii.closeBracket]

/-- What the grammar of search keys leaves to a dialect. -/
structure Grammar where
  /-- Whether the byte can be part of the name of a keyword. -/
  nameByte : UInt8 → Bool
  /-- Whether a year can have a sign and more than four digits. -/
  longYears : Bool
  /-- A name ends before a space. -/
  not_nameByte_space : ¬ nameByte Ascii.space := by decide
  /-- A name ends before the parenthesis that closes a key. -/
  not_nameByte_closeParen : ¬ nameByte Ascii.closeParen := by decide

/-- The standard grammar. -/
def Grammar.standard : Grammar := { nameByte := isAtomChar, longYears := false }

namespace SearchKey

/-! ### Numbers, strings and dates

Each reader takes its value from the front of the bytes and gives it with the
bytes that are left. -/

/-- Takes one byte. -/
def expect (b : UInt8) : Bytes → Option Bytes
  | [] => none
  | c :: rest => if c = b then some rest else none

/-- Takes a run of bytes with a property, one at least. -/
def run (p : UInt8 → Bool) (bs : Bytes) : Option (Bytes × Bytes) :=
  match bs.span p with
  | ([], _) => none
  | (b :: taken, rest) => some (b :: taken, rest)

/-- Takes a number of so many digits. -/
def number (fits : Nat → Bool) (bs : Bytes) : Option (Nat × Bytes) := do
  let (digits, bs) ← run Ascii.isDigit bs
  if fits digits.length then return (← Decimal.decode? digits, bs) else none

/-- Whether the byte can stand in a quoted string. -/
def isTextChar (b : UInt8) : Bool :=
  b != Ascii.nul && b ≤ Ascii.del && b != Ascii.cr && b != Ascii.lf

/-- Takes a quoted string after its opening double quote. -/
def quoted : Bytes → Option (Bytes × Bytes)
  | [] => none
  | b :: bs =>
    if b = Ascii.quote then some ([], bs)
    else if b = Ascii.backslash then
      match bs with
      | [] => none
      | e :: bs =>
        if e = Ascii.quote ∨ e = Ascii.backslash then
          (quoted bs).map fun (s, rest) => (e :: s, rest)
        else none
    else if isTextChar b then (quoted bs).map fun (s, rest) => (b :: s, rest)
    else none

/-- Takes a literal after its opening brace, be it synchronizing or not. -/
def literal (bs : Bytes) : Option (Bytes × Bytes) := do
  let (size, bs) ← number (fun _ => true) bs
  let bs ← expect Ascii.closeBrace ((expect Ascii.plus bs).getD bs)
  let bs ← expect Ascii.cr bs
  let bs ← expect Ascii.lf bs
  if size ≤ bs.length then return (bs.take size, bs.drop size) else none

/-- Takes a string, be it quoted, a literal or an atom. -/
def string : Bytes → Option (Bytes × Bytes)
  | [] => none
  | b :: bs =>
    if b = Ascii.quote then quoted bs
    else if b = Ascii.openBrace then literal bs
    else run (fun b => isAtomChar b || b == Ascii.closeBracket) (b :: bs)

/-- The names of the months in upper case. -/
def monthNames : List Bytes :=
  ["JAN", "FEB", "MAR", "APR", "MAY", "JUN", "JUL", "AUG", "SEP", "OCT", "NOV", "DEC"].map utf8

/-- Takes the name of a month. -/
def month (bs : Bytes) : Option (Nat × Bytes) :=
  (monthNames.findIdx? (· = upperCase (bs.take 3))).map fun i => (i + 1, bs.drop 3)

/-- Takes the sign of a number. -/
def sign : Bytes → Option (Int × Bytes)
  | [] => none
  | b :: bs =>
    if b = Ascii.minus then some (-1, bs) else if b = Ascii.plus then some (1, bs) else none

/-- Takes a year: four digits, or as many as it has if it has a sign. -/
def year (g : Grammar) (bs : Bytes) : Option (Int × Bytes) :=
  match if g.longYears then sign bs else none with
  | none => (number (· == 4) bs).map fun (n, rest) => (n, rest)
  | some (s, bs) => (number (4 ≤ ·) bs).map fun (n, rest) => (s * n, rest)

/-- Takes a date without quotes. -/
def dateText (g : Grammar) (bs : Bytes) : Option (Date × Bytes) := do
  let (day, bs) ← number (· ≤ 2) bs
  let bs ← expect Ascii.minus bs
  let (month, bs) ← month bs
  let bs ← expect Ascii.minus bs
  let (year, bs) ← year g bs
  return (← Date.ofParts? year month day, bs)

/-- Takes a date with or without quotes. -/
def date (g : Grammar) (bs : Bytes) : Option (Date × Bytes) :=
  match expect Ascii.quote bs with
  | none => dateText g bs
  | some bs => do
    let (day, bs) ← dateText g bs
    return (day, ← expect Ascii.quote bs)

/-! ### Sequence sets -/

/-- A bound of a range: a number that a message can have, without leading zeros, or `*`. -/
def bound? (bs : Bytes) : Option Bound :=
  if bs = [Ascii.star] then some .star
  else if bs.head? = some Ascii.zero then none
  else ((Decimal.decode? bs).filter isNumber).map .number

/-- A range, given by one bound or by two in either order. -/
def range? (bs : Bytes) : Option SeqRange :=
  match bs.splitOn Ascii.colon with
  | [b] => (bound? b).map fun b => .ofBounds b b
  | [a, b] => do return .ofBounds (← bound? a) (← bound? b)
  | _ => none

/-- Whether the byte can be part of a sequence set. -/
def isSetByte (b : UInt8) : Bool :=
  Ascii.isDigit b || b == Ascii.star || b == Ascii.comma || b == Ascii.colon

/-- Takes a sequence set, as the ranges that it is made of. -/
def ranges (bs : Bytes) : Option (List SeqRange × Bytes) := do
  let (set, bs) ← run isSetByte bs
  return (← (set.splitOn Ascii.comma).mapM range?, bs)

/-! ### Words -/

/-- What a word of the grammar wants behind it. -/
inductive Form
  /-- Nothing. -/
  | alone (key : SearchKey)
  /-- A string. -/
  | string (key : Bytes → SearchKey)
  /-- The name of a header field and a string. -/
  | field
  /-- A date. -/
  | date (key : Date → SearchKey)
  /-- A number. -/
  | number (key : Nat → SearchKey)
  /-- The name of a keyword. -/
  | keyword (key : Bytes → SearchKey)
  /-- A sequence set. -/
  | ranges
  /-- A key. -/
  | not
  /-- Two keys. -/
  | or

/-- The words of the grammar in upper case. -/
def forms : List (String × Form) :=
  [("ALL", .alone .all), ("NEW", .alone (.group [.flag .recent, .not (.flag .seen)])),
    ("ANSWERED", .alone (.flag .answered)), ("UNANSWERED", .alone (.not (.flag .answered))),
    ("DELETED", .alone (.flag .deleted)), ("UNDELETED", .alone (.not (.flag .deleted))),
    ("DRAFT", .alone (.flag .draft)), ("UNDRAFT", .alone (.not (.flag .draft))),
    ("FLAGGED", .alone (.flag .flagged)), ("UNFLAGGED", .alone (.not (.flag .flagged))),
    ("SEEN", .alone (.flag .seen)), ("UNSEEN", .alone (.not (.flag .seen))),
    ("RECENT", .alone (.flag .recent)), ("OLD", .alone (.not (.flag .recent))),
    ("BCC", .string (.header (utf8 "BCC"))), ("CC", .string (.header (utf8 "CC"))),
    ("FROM", .string (.header (utf8 "FROM"))), ("SUBJECT", .string (.header (utf8 "SUBJECT"))),
    ("TO", .string (.header (utf8 "TO"))), ("HEADER", .field),
    ("BODY", .string .body), ("TEXT", .string .text),
    ("ON", .date fun d => .arrived (.on d)), ("SINCE", .date fun d => .arrived (.since d)),
    ("BEFORE", .date fun d => .arrived (.before d)), ("SENTON", .date fun d => .sent (.on d)),
    ("SENTSINCE", .date fun d => .sent (.since d)),
    ("SENTBEFORE", .date fun d => .sent (.before d)),
    ("LARGER", .number .larger), ("SMALLER", .number .smaller),
    ("KEYWORD", .keyword .keyword),
    ("UNKEYWORD", .keyword fun name => .not (.keyword name)),
    ("UID", .ranges), ("NOT", .not), ("OR", .or)]

/-- What a word, in any case, wants behind it. -/
def form? (word : Bytes) : Option Form :=
  (forms.find? fun (name, _) => utf8 name = upperCase word).map (·.2)

/-- The beginning of a key. -/
inductive Opening
  /-- A key without keys in it. -/
  | whole (key : SearchKey)
  /-- One key follows, which must not match. -/
  | not
  /-- Two keys follow, one of which has to match. -/
  | or
  /-- Keys in parentheses follow. -/
  | group

/-- Takes what follows a word. -/
def Form.read (g : Grammar) (form : Form) (bs : Bytes) : Option (Opening × Bytes) :=
  match form with
  | .alone key => some (.whole key, bs)
  | .string key => do
    let (s, bs) ← SearchKey.string (← expect Ascii.space bs)
    return (.whole (key s), bs)
  | .field => do
    let (name, bs) ← SearchKey.string (← expect Ascii.space bs)
    let (value, bs) ← SearchKey.string (← expect Ascii.space bs)
    return (.whole (.header name value), bs)
  | .date key => do
    let (day, bs) ← SearchKey.date g (← expect Ascii.space bs)
    return (.whole (key day), bs)
  | .number key => do
    let (n, bs) ← SearchKey.number (fun _ => true) (← expect Ascii.space bs)
    return (.whole (key n), bs)
  | .keyword key => do
    let (name, bs) ← run g.nameByte (← expect Ascii.space bs)
    return (.whole (key name), bs)
  | .ranges => do
    let (set, bs) ← SearchKey.ranges (← expect Ascii.space bs)
    return (.whole (.uid set), bs)
  | .not => do return (.not, ← expect Ascii.space bs)
  | .or => do return (.or, ← expect Ascii.space bs)

/-- Takes the beginning of a key. -/
def opening (g : Grammar) : Bytes → Option (Opening × Bytes)
  | [] => none
  | b :: bs =>
    if b = Ascii.openParen then some (.group, bs)
    else if isSetByte b then
      (ranges (b :: bs)).map fun (set, rest) => (.whole (.numbered set), rest)
    else do
      let (word, bs) ← run isAtomChar (b :: bs)
      (← form? word).read g bs

/-! ### Keys -/

@[simp] theorem expect_self (b : UInt8) (rest : Bytes) : expect b (b :: rest) = some rest :=
  if_pos rfl

theorem expect_of_ne {b c : UInt8} (h : c ≠ b) (rest : Bytes) : expect b (c :: rest) = none :=
  if_neg h

theorem length_of_expect {b : UInt8} {bs rest : Bytes} (h : expect b bs = some rest) :
    rest.length < bs.length := by
  cases bs with
  | nil => cases h
  | cons c bs =>
    obtain ⟨-, h⟩ := Option.ite_none_right_eq_some.mp h
    cases h
    exact Nat.lt_succ_self _

mutual

/-- Takes a key. A beginning that takes up no byte would be no progress, and is refused. -/
def readKey (g : Grammar) (bs : Bytes) :
    Option (SearchKey × { rest : Bytes // rest.length < bs.length }) :=
  match opening g bs with
  | none => none
  | some (o, rest) =>
    if h : rest.length < bs.length then
      match o with
      | .whole key => some (key, ⟨rest, h⟩)
      | .not =>
        match readKey g rest with
        | none => none
        | some (key, ⟨rest₁, h₁⟩) => some (.not key, ⟨rest₁, by omega⟩)
      | .or =>
        match readKey g rest with
        | none => none
        | some (left, ⟨rest₁, h₁⟩) =>
          match hs : expect Ascii.space rest₁ with
          | none => none
          | some rest₂ =>
            have := length_of_expect hs
            match readKey g rest₂ with
            | none => none
            | some (right, ⟨rest₃, h₃⟩) => some (.or left right, ⟨rest₃, by omega⟩)
      | .group =>
        match readKeys g rest with
        | none => none
        | some (keys, ⟨rest₁, h₁⟩) => some (.group keys, ⟨rest₁, by omega⟩)
    else none
termination_by (bs.length, 0)

/-- Takes keys with spaces between them, and the parenthesis that closes them. -/
def readKeys (g : Grammar) (bs : Bytes) :
    Option (List SearchKey × { rest : Bytes // rest.length < bs.length }) :=
  match readKey g bs with
  | none => none
  | some (key, ⟨rest, h⟩) =>
    match hc : expect Ascii.closeParen rest with
    | some rest₁ => some ([key], ⟨rest₁, by have := length_of_expect hc; omega⟩)
    | none =>
      match hs : expect Ascii.space rest with
      | none => none
      | some rest₁ =>
        have := length_of_expect hs
        match readKeys g rest₁ with
        | none => none
        | some (keys, ⟨rest₂, h₂⟩) => some (key :: keys, ⟨rest₂, by omega⟩)
termination_by (bs.length, 1)

end

/-- Reads a key from the front of the bytes, and gives it with the bytes that follow it. -/
def read (g : Grammar) (bs : Bytes) : Option (SearchKey × Bytes) :=
  (readKey g bs).map fun (key, rest) => (key, rest.val)

/-- Reads keys up to a closing parenthesis, and gives them with the bytes that follow it. -/
def readAll (g : Grammar) (bs : Bytes) : Option (List SearchKey × Bytes) :=
  (readKeys g bs).map fun (keys, rest) => (keys, rest.val)

/-! ### Reading key by key

The readers without the proofs that they carry. -/

theorem read_eq_some {g : Grammar} {bs rest : Bytes} {key : SearchKey} :
    read g bs = some (key, rest) ↔ ∃ h, readKey g bs = some (key, ⟨rest, h⟩) := by
  simp only [read, Option.map_eq_some_iff, Prod.exists, Prod.mk.injEq, Subtype.exists]
  constructor
  · intro h
    obtain ⟨_, _, h, hr, rfl, rfl⟩ := h
    exact ⟨h, hr⟩
  · intro h
    obtain ⟨h, hr⟩ := h
    exact ⟨_, _, h, hr, rfl, rfl⟩

theorem readAll_eq_some {g : Grammar} {bs rest : Bytes} {keys : List SearchKey} :
    readAll g bs = some (keys, rest) ↔ ∃ h, readKeys g bs = some (keys, ⟨rest, h⟩) := by
  simp only [readAll, Option.map_eq_some_iff, Prod.exists, Prod.mk.injEq, Subtype.exists]
  constructor
  · intro h
    obtain ⟨_, _, h, hr, rfl, rfl⟩ := h
    exact ⟨h, hr⟩
  · intro h
    obtain ⟨h, hr⟩ := h
    exact ⟨_, _, h, hr, rfl, rfl⟩

section Steps

variable {g : Grammar} {bs rest after : Bytes} {key : SearchKey}

theorem read_of_whole (ho : opening g bs = some (.whole key, rest))
    (hlt : rest.length < bs.length) : read g bs = some (key, rest) := by
  rw [read_eq_some]
  refine ⟨hlt, ?_⟩
  rw [readKey, ho]
  exact dif_pos hlt

theorem read_of_not (ho : opening g bs = some (.not, rest)) (hlt : rest.length < bs.length)
    (hk : read g rest = some (key, after)) : read g bs = some (.not key, after) := by
  obtain ⟨h, hk⟩ := read_eq_some.mp hk
  rw [read_eq_some]
  refine ⟨by omega, ?_⟩
  rw [readKey, ho]
  simp only [dif_pos hlt, hk]

theorem read_of_or {left right : SearchKey} {afterLeft : Bytes}
    (ho : opening g bs = some (.or, rest)) (hlt : rest.length < bs.length)
    (hl : read g rest = some (left, Ascii.space :: afterLeft))
    (hr : read g afterLeft = some (right, after)) : read g bs = some (.or left right, after) := by
  obtain ⟨h₁, hl⟩ := read_eq_some.mp hl
  obtain ⟨h₂, hr⟩ := read_eq_some.mp hr
  rw [List.length_cons] at h₁
  rw [read_eq_some]
  refine ⟨by omega, ?_⟩
  rw [readKey, ho]
  simp only [dif_pos hlt, hl]
  split
  next hs => simp at hs
  next rest₂ hs =>
    obtain rfl : afterLeft = rest₂ := by simpa using hs
    simp only [hr]

theorem read_of_group {keys : List SearchKey} (ho : opening g bs = some (.group, rest))
    (hlt : rest.length < bs.length) (hk : readAll g rest = some (keys, after)) :
    read g bs = some (.group keys, after) := by
  obtain ⟨h, hk⟩ := readAll_eq_some.mp hk
  rw [read_eq_some]
  refine ⟨by omega, ?_⟩
  rw [readKey, ho]
  simp only [dif_pos hlt, hk]

theorem readAll_last (hk : read g bs = some (key, Ascii.closeParen :: rest)) :
    readAll g bs = some ([key], rest) := by
  obtain ⟨h, hk⟩ := read_eq_some.mp hk
  rw [List.length_cons] at h
  rw [readAll_eq_some]
  refine ⟨by omega, ?_⟩
  rw [readKeys, hk]
  dsimp only
  split
  next rest₁ hc =>
    obtain rfl : rest = rest₁ := by simpa using hc
    rfl
  next hc => simp at hc

theorem readAll_more {keys : List SearchKey} (hk : read g bs = some (key, Ascii.space :: rest))
    (hr : readAll g rest = some (keys, after)) : readAll g bs = some (key :: keys, after) := by
  obtain ⟨h, hk⟩ := read_eq_some.mp hk
  obtain ⟨h₁, hr⟩ := readAll_eq_some.mp hr
  rw [List.length_cons] at h
  rw [readAll_eq_some]
  refine ⟨by omega, ?_⟩
  rw [readKeys, hk]
  dsimp only
  split
  next rest₁ hc =>
    rw [expect_of_ne (by decide)] at hc
    cases hc
  next hc =>
    split
    next hs => simp at hs
    next rest₁ hs =>
      obtain rfl : rest = rest₁ := by simpa using hs
      simp only [hr]

end Steps

end SearchKey

end ImapSearch
