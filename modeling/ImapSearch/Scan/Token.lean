import ImapSearch.Scan

/-!
# ImapSearch.Scan.Token

**From bytes to tokens.** `Scan.token` reads the next token of a response. A
byte of punctuation is a token by itself; a run of atom characters is a number
if it holds digits alone, `NIL` if it is that word, and an atom otherwise; a
double quote opens a quoted string and a brace a literal, whose header announces
how many bytes follow it. At the end of the input there is no more than the
token that says so.

Two facts about it are all that its callers need: it moves forward
(`forward_token`), and short of the end it reads at least one byte
(`length_lt_of_token`). So `Scan.tokens`, which reads token after token, comes
to the end of the input or to an error.
-/

namespace ImapSearch

/-! ### Bytes of a token -/

/-- Whether the byte can be part of an atom: printable ASCII without the bytes that the grammar
reserves. The backslash, the colon and the comma are allowed, so that flags and sequence sets are
atoms. -/
def isAtomByte (b : UInt8) : Bool :=
  Ascii.space < b && b < Ascii.del && b != Ascii.openParen && b != Ascii.closeParen
    && b != Ascii.openBrace && b != Ascii.quote && b != Ascii.percent && b != Ascii.star
    && b != Ascii.closeBracket

/-- The token that the byte is by itself. -/
def punctuation? (b : UInt8) : Option Token :=
  if b = Ascii.space then some .space
  else if b = Ascii.openParen then some .listStart
  else if b = Ascii.closeParen then some .listEnd
  else if b = Ascii.openBracket then some .codeStart
  else if b = Ascii.closeBracket then some .codeEnd
  else if b = Ascii.star then some .untagged
  else if b = Ascii.plus then some .continuation
  else none

/-- What the numbers of a response stay below: the first number that needs more than 32 bits. -/
def numberBound : Nat := 4294967296

/-- What the sizes of literals stay below: the first number that needs more than 64 bits. -/
def sizeBound : Nat := 18446744073709551616

namespace Scan

/-! ### Words -/

/-- Reads a run of atom characters. -/
def word : Scan Token := do
  let name ← takeWhile isAtomByte
  if name.all Ascii.isDigit then
    match Decimal.decodeBelow? numberBound name with
    | some n => return .number n
    | none => fail .numberTooLarge
  else if upperCase name = utf8 "NIL" then return .nil
  else return .atom name

theorem forward_word : word.Forward := by
  refine (forward_takeWhile _).bind fun name => ?_
  split
  · split
    · exact forward_pure _
    · exact forward_fail _
  · split <;> exact forward_pure _

/-! ### Quoted strings -/

/-- Reads what follows an opening double quote, `pos` bytes into the response, up to the closing
one. A backslash stands before a double quote or a backslash that belongs to the content. -/
def quotedBytes (pos : Nat) : Bytes → EStateM.Result Error Cursor Bytes
  | [] => .error (.malformed pos .unterminatedQuoted) ⟨pos, []⟩
  | b :: rest =>
    if b = Ascii.quote then .ok [] ⟨pos + 1, rest⟩
    else if b = Ascii.backslash then
      match rest with
      | [] => .error (.malformed (pos + 1) .invalidEscape) ⟨pos + 1, []⟩
      | e :: rest' =>
        if e = Ascii.quote ∨ e = Ascii.backslash then
          match quotedBytes (pos + 2) rest' with
          | .ok content c => .ok (e :: content) c
          | .error err c => .error err c
        else .error (.malformed (pos + 1) .invalidEscape) ⟨pos + 1, e :: rest'⟩
    else if b = Ascii.cr ∨ b = Ascii.lf then
      .error (.malformed pos .unterminatedQuoted) ⟨pos, b :: rest⟩
    else
      match quotedBytes (pos + 1) rest with
      | .ok content c => .ok (b :: content) c
      | .error err c => .error err c

/-- Reads the content of a quoted string after its opening double quote. -/
def quotedContent : Scan Bytes := fun c => quotedBytes c.pos c.rest

/-- Reads a quoted string after its opening double quote. -/
def quotedString : Scan Token := do
  match ofUtf8? (← quotedContent) with
  | some text => return .quoted text
  | none => fail .quotedNotUtf8

theorem forward_quotedContent : quotedContent.Forward := by
  intro c
  obtain ⟨pos, rest⟩ := c
  show Cursor.Reaches _ (stop (quotedBytes pos rest))
  have step : ∀ {p : Nat} {b : UInt8} {r : Bytes} {d : Cursor},
      (⟨p + 1, r⟩ : Cursor).Reaches d → (⟨p, b :: r⟩ : Cursor).Reaches d :=
    fun {p b r d} h => Cursor.Reaches.trans ⟨[b], rfl, rfl⟩ h
  fun_induction quotedBytes pos rest with
  | case1 => exact .refl _
  | case2 => exact step (.refl _)
  | case3 => exact step (.refl _)
  | case4 pos e rest' _ content d hc _ ih => rw [hc] at ih; exact step (step ih)
  | case5 pos e rest' _ err d hc _ ih => rw [hc] at ih; exact step (step ih)
  | case6 => exact step (.refl _)
  | case7 => exact .refl _
  | case8 pos b rest _ _ _ content d hc ih => rw [hc] at ih; exact step ih
  | case9 pos b rest _ _ _ err d hc ih => rw [hc] at ih; exact step ih

theorem forward_quotedString : quotedString.Forward := by
  refine forward_quotedContent.bind fun content => ?_
  split
  · exact forward_pure _
  · exact forward_fail _

/-! ### Literals -/

/-- Reads a literal after its opening brace: the size, a plus sign if the literal is
non-synchronizing, the closing brace, the line terminator, and the announced data. -/
def literal : Scan Token := do
  let digits ← takeWhile Ascii.isDigit
  match Decimal.decodeBelow? sizeBound digits with
  | none => fail .literalSize
  | some size =>
    let _ ← eat Ascii.plus
    if !(← eat Ascii.closeBrace) then fail .literalBrace
    else if !(← eat Ascii.cr) then fail .literalLine
    else if !(← eat Ascii.lf) then fail .literalLine
    else
      match ← take? size with
      | some data => return .literal data
      | none => fail .literalIncomplete

theorem forward_literal : literal.Forward := by
  refine (forward_takeWhile _).bind fun digits => ?_
  split
  · exact forward_fail _
  · refine (forward_eat _).bind fun _ => (forward_eat _).bind fun brace => ?_
    split
    · exact forward_fail _
    · refine (forward_eat _).bind fun cr => ?_
      split
      · exact forward_fail _
      · refine (forward_eat _).bind fun lf => ?_
        split
        · exact forward_fail _
        · refine (forward_take? _).bind fun data => ?_
          split
          · exact forward_pure _
          · exact forward_fail _

/-! ### Tokens -/

/-- Reads the next token. -/
def token : Scan Token := fun c =>
  match c.rest with
  | [] => .ok .endOfInput c
  | b :: rest =>
    match punctuation? b with
    | some t => .ok t (c.skip 1)
    | none =>
      if b = Ascii.cr ∧ rest.head? = some Ascii.lf then .ok .lineEnd (c.skip 2)
      else if b = Ascii.quote then quotedString (c.skip 1)
      else if b = Ascii.openBrace then literal (c.skip 1)
      else if isAtomByte b then word c
      else fail (.unexpectedByte b) c

theorem forward_token : token.Forward := by
  intro c
  unfold token
  split
  · exact .refl c
  · split
    · exact c.reaches_skip 1
    · split
      · exact c.reaches_skip 2
      · split
        · exact (c.reaches_skip 1).trans (forward_quotedString _)
        · split
          · exact (c.reaches_skip 1).trans (forward_literal _)
          · split
            · exact forward_word c
            · exact forward_fail _ c

/-- A byte that was read is no longer left. -/
theorem length_skip_succ_lt {c : Cursor} {b : UInt8} {rest : Bytes} (h : c.rest = b :: rest)
    (n : Nat) : (c.skip (n + 1)).rest.length < c.rest.length := by
  simp only [Cursor.skip, h, List.drop_succ_cons, List.length_drop, List.length_cons]
  omega

/-- A word that begins with an atom character takes up at least that character. -/
theorem length_lt_of_word {c d : Cursor} {t : Token} {b : UInt8} {rest : Bytes}
    (hc : c.rest = b :: rest) (hb : isAtomByte b) (h : word c = .ok t d) :
    d.rest.length < c.rest.length := by
  have hskip : (c.skip (c.rest.takeWhile isAtomByte).length).rest.length < c.rest.length := by
    rw [show (c.rest.takeWhile isAtomByte).length = (rest.takeWhile isAtomByte).length + 1 by
      simp [hc, hb]]
    exact length_skip_succ_lt hc _
  rw [word, bind_apply] at h
  dsimp only [takeWhile] at h
  split at h
  · cases hn : Decimal.decodeBelow? numberBound (c.rest.takeWhile isAtomByte) <;> rw [hn] at h
    · cases h
    · cases h; exact hskip
  · split at h <;> (cases h; exact hskip)

/-- Short of the end of the input, a token takes up at least one byte. -/
theorem length_lt_of_token {c d : Cursor} {t : Token} (h : token c = .ok t d)
    (ht : t ≠ .endOfInput) : d.rest.length < c.rest.length := by
  unfold token at h
  split at h
  next => cases h; exact absurd rfl ht
  next b rest hc =>
    split at h
    · cases h; exact length_skip_succ_lt hc 0
    · split at h
      · cases h; exact length_skip_succ_lt hc 1
      · split at h
        · exact Nat.lt_of_le_of_lt (forward_quotedString.ok h).length_le (length_skip_succ_lt hc 0)
        · split at h
          · exact Nat.lt_of_le_of_lt (forward_literal.ok h).length_le (length_skip_succ_lt hc 0)
          · split at h
            next hb => exact length_lt_of_word hc hb h
            next => cases h

/-! ### All tokens -/

/-- What reading token by token gives. -/
structure Tokens where
  /-- The tokens, in order, without the one that stands for the end. -/
  tokens : List Token
  /-- The error that ended reading, absent if the end of the input was reached. -/
  error : Option Error
  /-- Where reading stopped. -/
  stop : Cursor
deriving Repr

/-- Reads tokens up to the end of the input or an error. -/
def tokens (c : Cursor) : Tokens :=
  match _h : token c with
  | .error e d => ⟨[], some e, d⟩
  | .ok t d =>
    if _ht : t = .endOfInput then ⟨[], none, d⟩
    else
      let others := tokens d
      { others with tokens := t :: others.tokens }
termination_by c.rest.length
decreasing_by exact length_lt_of_token _h _ht

end Scan

end ImapSearch
