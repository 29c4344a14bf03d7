import ImapSearch.Scan.Token

/-!
# ImapSearch.Scan.Value

**Values of a response.** On top of single tokens this module reads what the
grammar of responses is made of: a space or a token that has to follow, a
number, a word, a string in any of its forms, a list of items with a space in
front of each (`Scan.spaced`), and a value of which nothing is known but that it
is one (`Scan.discardValue`).
-/

namespace ImapSearch.Scan

variable {α : Type}

/-! ### Tokens that have to follow -/

/-- Reads a token of the same kind as the given one. -/
def expect (expected : Token) : Scan Unit := do
  let t ← token
  if t.kind = expected.kind then return () else fail (.expectedToken expected t)

/-- Reads a space if it is the next byte, and tells whether it was. -/
def space : Scan Bool := eat Ascii.space

/-- Reads a space, which has to be the next byte. -/
def expectSpace : Scan Unit := do
  if ← space then return () else fail .expectedSpace

theorem forward_expect (expected : Token) : (expect expected).Forward := by
  refine forward_token.bind fun t => ?_
  split
  · exact forward_pure _
  · exact forward_fail _

theorem forward_space : space.Forward := forward_eat _

theorem forward_expectSpace : expectSpace.Forward := by
  refine forward_space.bind fun found => ?_
  split
  · exact forward_pure _
  · exact forward_fail _

/-! ### Scalars -/

/-- Reads a number. -/
def number : Scan Nat := do
  match ← token with
  | .number n => return n
  | t => fail (.expectedNumber t)

/-- Reads a word. The word `NIL` is one, in upper case. -/
def atom : Scan Bytes := do
  match ← token with
  | .atom name => return name
  | .nil => return utf8 "NIL"
  | t => fail (.expectedAtom t)

/-- Reads a string in any of its forms: a word, a number as its digits, a quoted string, or a
literal. -/
def string : Scan String := do
  match ← token with
  | .atom name => return asciiText name
  | .number n => return Decimal.text n
  | .nil => return "NIL"
  | .quoted text => return text
  | .literal data =>
    match ofUtf8? data with
    | some text => return text
    | none => fail .literalNotUtf8
  | t => fail (.expectedString t)

theorem forward_number : number.Forward := by
  refine forward_token.bind fun t => ?_
  split
  · exact forward_pure _
  · exact forward_fail _

theorem forward_atom : atom.Forward := by
  refine forward_token.bind fun t => ?_
  split
  · exact forward_pure _
  · exact forward_pure _
  · exact forward_fail _

theorem forward_string : string.Forward := by
  refine forward_token.bind fun t => ?_
  split
  · exact forward_pure _
  · exact forward_pure _
  · exact forward_pure _
  · exact forward_pure _
  · split
    · exact forward_pure _
    · exact forward_fail _
  · exact forward_fail _

/-! ### Values of any shape -/

/-- How many lists are open after a token, if the token may stand inside that many lists. Outside
of any list only a scalar or the beginning of a list is a value. -/
def nesting? (depth : Nat) : Token → Option Nat
  | .listStart => some (depth + 1)
  | .listEnd => if depth = 0 then none else some (depth - 1)
  | .space | .codeStart | .codeEnd | .untagged => if depth = 0 then none else some depth
  | t => if t.isScalar then some depth else none

theorem ne_endOfInput_of_nesting? {depth n : Nat} {t : Token} (h : nesting? depth t = some n) :
    t ≠ .endOfInput := by
  rintro rfl
  simp [nesting?, Token.isScalar] at h

/-- Reads on inside `depth` lists until the last of them is closed. -/
def discardNested (depth : Nat) (c : Cursor) : EStateM.Result Error Cursor Unit :=
  match _h : token c with
  | .error e d => .error e d
  | .ok t d =>
    match _hn : nesting? depth t with
    | none => fail (.expectedValue t) d
    | some 0 => .ok () d
    | some (n + 1) => discardNested (n + 1) d
termination_by c.rest.length
decreasing_by exact length_lt_of_token _h (ne_endOfInput_of_nesting? _hn)

/-- Reads one value and forgets it: a scalar, or a parenthesised list of values, nested to any
depth. -/
def discardValue : Scan Unit := discardNested 0

theorem forward_discardNested (depth : Nat) (c : Cursor) :
    c.Reaches (stop (discardNested depth c)) := by
  fun_induction discardNested depth c with
  | case1 depth c e d h => exact forward_token.error h
  | case2 depth c t d h hn => exact forward_token.ok h
  | case3 depth c t d h hn => exact forward_token.ok h
  | case4 depth c t d h n hn ih => exact (forward_token.ok h).trans ih

theorem forward_discardValue : discardValue.Forward := forward_discardNested 0

/-! ### Lists -/

/-- Reads items, each with a space in front of it, until no space follows or an item says that the
list is over. -/
def spaced (item : Scan (Option α)) (hitem : item.Forward) (c : Cursor) :
    EStateM.Result Error Cursor (List α) :=
  match _hc : c.rest with
  | [] => .ok [] c
  | b :: _ =>
    if b = Ascii.space then
      match _h : item (c.skip 1) with
      | .error e d => .error e d
      | .ok none d => .ok [] d
      | .ok (some a) d =>
        match spaced item hitem d with
        | .ok as f => .ok (a :: as) f
        | .error e f => .error e f
    else .ok [] c
termination_by c.rest.length
decreasing_by exact Nat.lt_of_le_of_lt (hitem.ok _h).length_le (length_skip_succ_lt _hc 0)

theorem forward_spaced (item : Scan (Option α)) (hitem : item.Forward) :
    Forward (spaced item hitem) := by
  intro c
  fun_induction spaced item hitem c with
  | case1 c hc => exact .refl c
  | case2 c rest e d h _ => exact (c.reaches_skip 1).trans (hitem.error h)
  | case3 c rest d h _ => exact (c.reaches_skip 1).trans (hitem.ok h)
  | case4 c rest a d h as f hs _ ih =>
    rw [hs] at ih
    exact ((c.reaches_skip 1).trans (hitem.ok h)).trans ih
  | case5 c rest a d h e f hs _ ih =>
    rw [hs] at ih
    exact ((c.reaches_skip 1).trans (hitem.ok h)).trans ih
  | case6 c b rest hc hb => exact .refl c

end ImapSearch.Scan
