import ImapSearch.Proofs.Response.Extension
import ImapSearch.Proofs.Scan.InLine
import ImapSearch.Proofs.Scan.Tokens

/-!
# ImapSearch.Proofs.Scan.Discard

**A value is read over as a whole.** The reader that forgets a value counts open lists and
looks at one token after the other. The grammar of values says the same without counting:
a value is a scalar, or a list whose parentheses enclose a balanced sequence of tokens
(`Token.IsValue`). The reader succeeds if, and only if, the tokens that come next begin
with a value, and it stops behind that (`Scan.discardValue_eq_ok_iff`).

Of the line terminators in front of that place every one belongs to a literal that was
read: it ends the header, or it is part of the data (`Scan.LiteralBetween.OwnsBreak`). No
other token of a value is written with a byte of a line break.
-/

namespace ImapSearch

/-! ### Values as tokens -/

namespace Token

/-- Whether the token may stand anywhere in a list and opens or closes none. -/
def isPlain : Token → Bool
  | .space | .codeStart | .codeEnd | .untagged => true
  | t => t.isScalar

/-- Tokens of which each parenthesis has its counterpart. -/
inductive Balanced : List Token → Prop
  | nil : Balanced []
  | plain {t : Token} {ts : List Token} (ht : t.isPlain) (h : Balanced ts) : Balanced (t :: ts)
  | list {inner ts : List Token} (hinner : Balanced inner) (h : Balanced ts) :
      Balanced (.listStart :: (inner ++ .listEnd :: ts))

/-- The tokens of one value. -/
inductive IsValue : List Token → Prop
  | scalar {t : Token} (ht : t.isScalar) : IsValue [t]
  | list {inner : List Token} (h : Balanced inner) : IsValue (.listStart :: (inner ++ [.listEnd]))

theorem Balanced.mem_cases {ts : List Token} (h : Balanced ts) {t : Token} (ht : t ∈ ts) :
    t.isPlain ∨ t = .listStart ∨ t = .listEnd := by
  induction h with
  | nil => cases ht
  | plain hplain _ ih =>
    rcases List.mem_cons.mp ht with rfl | ht
    · exact .inl hplain
    · exact ih ht
  | list _ _ ihInner ih =>
    rw [List.mem_cons, List.mem_append, List.mem_cons] at ht
    rcases ht with rfl | ht | rfl | ht
    · exact .inr (.inl rfl)
    · exact ihInner ht
    · exact .inr (.inr rfl)
    · exact ih ht

/-- Neither the end of a line nor that of the input is among the tokens of a value. -/
theorem IsValue.mem_cases {ts : List Token} (h : IsValue ts) {t : Token} (ht : t ∈ ts) :
    t.isPlain ∨ t = .listStart ∨ t = .listEnd := by
  cases h with
  | scalar hscalar =>
    obtain rfl := List.mem_singleton.mp ht
    refine .inl ?_
    cases t <;> first | rfl | cases hscalar
  | list hinner => exact (Balanced.list hinner .nil).mem_cases ht

/-- Tokens that close a number of lists one after another, the last of them at their end. -/
inductive Closes : Nat → List Token → Prop
  | zero : Closes 0 []
  | succ {depth : Nat} {inner ts : List Token} (hinner : Balanced inner) (h : Closes depth ts) :
      Closes (depth + 1) (inner ++ .listEnd :: ts)

theorem Closes.plain {depth : Nat} {t : Token} {ts : List Token} (ht : t.isPlain)
    (h : Closes (depth + 1) ts) : Closes (depth + 1) (t :: ts) := by
  cases h with
  | succ hinner h => exact .succ (.plain ht hinner) h

/-- The list that is closed first is part of what the next one encloses. -/
theorem Closes.list {depth : Nat} {ts : List Token} (h : Closes (depth + 2) ts) :
    Closes (depth + 1) (.listStart :: ts) := by
  cases h with
  | succ hinner h =>
    cases h with
    | @succ _ inner ts hinner' h =>
      have hboth := Closes.succ (.list hinner hinner') h
      rw [List.cons_append, List.append_assoc, List.cons_append] at hboth
      exact hboth

end Token

namespace Scan

/-! ### Counting lists -/

/-- How a token inside of lists changes their number. -/
theorem nesting?_succ_eq_some_iff {depth n : Nat} {t : Token} :
    nesting? (depth + 1) t = some n ↔
      (t = .listStart ∧ n = depth + 2) ∨ (t = .listEnd ∧ n = depth) ∨
        (t.isPlain ∧ n = depth + 1) := by
  cases t <;> simp [nesting?, Token.isPlain, Token.isScalar, eq_comm]

/-- A token and the tokens behind it close as many lists as were open in front of it. -/
theorem closes_cons {depth n : Nat} {t : Token} {ts : List Token}
    (h : nesting? (depth + 1) t = some n) (hts : Token.Closes n ts) :
    Token.Closes (depth + 1) (t :: ts) := by
  rcases nesting?_succ_eq_some_iff.mp h with ⟨rfl, rfl⟩ | ⟨rfl, rfl⟩ | ⟨ht, rfl⟩
  · exact hts.list
  · exact .succ .nil hts
  · exact hts.plain ht

theorem discardNested_of_token {depth n : Nat} {c d : Cursor} {t : Token}
    (h : token c = .ok t d) (hn : nesting? depth t = some (n + 1)) :
    discardNested depth c = discardNested (n + 1) d := by
  rw [discardNested_eq_bind, bind_of_ok h, hn]

theorem discardNested_of_last {depth : Nat} {c d : Cursor} {t : Token}
    (h : token c = .ok t d) (hn : nesting? depth t = some 0) :
    discardNested depth c = .ok () d := by
  rw [discardNested_eq_bind, bind_of_ok h, hn]
  rfl

/-- Reading on inside of lists stops where the last of them is closed. -/
theorem exists_closes {depth : Nat} {c d : Cursor} (h : discardNested (depth + 1) c = .ok () d) :
    ∃ ts, Token.Closes (depth + 1) ts ∧ Yields c ts d := by
  generalize hopen : depth + 1 = opened at h
  fun_induction discardNested opened c generalizing depth with
  | case1 => cases h
  | case2 => cases h
  | case3 opened c t d' hread hn =>
    cases h
    subst hopen
    exact ⟨[t], closes_cons hn .zero, .single hread⟩
  | case4 opened c t d' hread n hn ih =>
    subst hopen
    obtain ⟨ts, hts, hyields⟩ := ih rfl h
    exact ⟨t :: ts, closes_cons hn hts, .cons hread hyields⟩

/-- Balanced tokens do not change how many lists are open. -/
theorem discardNested_of_balanced {inner : List Token} (h : Token.Balanced inner) {depth : Nat}
    {c d : Cursor} (hread : Yields c inner d) :
    discardNested (depth + 1) c = discardNested (depth + 1) d := by
  induction h generalizing depth c d with
  | nil =>
    cases hread
    rfl
  | plain ht _ ih =>
    cases hread with
    | cons hfirst hrest =>
      rw [discardNested_of_token hfirst (nesting?_succ_eq_some_iff.mpr (.inr (.inr ⟨ht, rfl⟩)))]
      exact ih hrest
  | list _ _ ihInner ih =>
    cases hread with
    | cons hopen hrest =>
      obtain ⟨e, hinner, hrest⟩ := hrest.exists_of_append
      cases hrest with
      | cons hclose hrest =>
        rw [discardNested_of_token hopen (nesting?_succ_eq_some_iff.mpr (.inl ⟨rfl, rfl⟩)),
          ihInner hinner,
          discardNested_of_token hclose (nesting?_succ_eq_some_iff.mpr (.inr (.inl ⟨rfl, rfl⟩)))]
        exact ih hrest

/-- Outside of any list a token is a value by itself or opens a list. -/
theorem nesting?_zero_eq_some_iff {n : Nat} {t : Token} :
    nesting? 0 t = some n ↔ (t = .listStart ∧ n = 1) ∨ (t.isScalar ∧ n = 0) := by
  cases t <;> simp [nesting?, Token.isScalar, eq_comm]

/-- The reader that forgets a value stops behind the tokens of one value. -/
theorem exists_value {c d : Cursor} (h : discardValue c = .ok () d) :
    ∃ ts, Token.IsValue ts ∧ Yields c ts d := by
  have hnested : discardNested 0 c = .ok () d := h
  rw [discardNested_eq_bind] at hnested
  obtain ⟨t, c₁, hread, hnested⟩ := exists_of_bind hnested
  cases hn : nesting? 0 t with
  | none =>
    rw [hn] at hnested
    cases hnested
  | some n =>
    rw [hn] at hnested
    rcases nesting?_zero_eq_some_iff.mp hn with ⟨rfl, rfl⟩ | ⟨ht, rfl⟩
    · obtain ⟨ts, hts, hyields⟩ := exists_closes hnested
      cases hts with
      | succ hinner hdone =>
        cases hdone
        exact ⟨_, .list hinner, .cons hread hyields⟩
    · cases hnested
      exact ⟨[t], .scalar ht, .single hread⟩

theorem discardValue_of_value {c d : Cursor} {ts : List Token} (h : Token.IsValue ts)
    (hread : Yields c ts d) : discardValue c = .ok () d := by
  cases h with
  | scalar ht =>
    cases hread with
    | cons hfirst hrest =>
      cases hrest
      exact discardNested_of_last hfirst (nesting?_zero_eq_some_iff.mpr (.inr ⟨ht, rfl⟩))
  | list hinner =>
    cases hread with
    | cons hopen hrest =>
      obtain ⟨e, hread, hrest⟩ := hrest.exists_of_append
      cases hrest with
      | cons hclose hrest =>
        cases hrest
        rw [discardValue,
          discardNested_of_token hopen (nesting?_zero_eq_some_iff.mpr (.inl ⟨rfl, rfl⟩)),
          discardNested_of_balanced hinner hread]
        exact discardNested_of_last hclose (nesting?_succ_eq_some_iff.mpr (.inr (.inl ⟨rfl, rfl⟩)))

/-! ### Line terminators in a value -/

/-- A literal that is read on the way from one place to another. -/
structure LiteralBetween (c d : Cursor) where
  front : List Token
  text : LiteralText
  back : List Token
  /-- Where the literal begins. -/
  opening : Cursor
  /-- Where it ends. -/
  closing : Cursor
  reads_front : Yields c front opening
  reads : token opening = .ok (.literal text.data) closing
  reads_back : Yields closing back d
  written : opening.rest = text.bytes ++ closing.rest

/-- The terminator that stands at this place of the response ends the header of the literal, or it
is part of its data. -/
def LiteralBetween.OwnsBreak {c d : Cursor} (l : LiteralBetween c d) (pos : Nat) : Prop :=
  pos = l.opening.pos + l.text.header.length ∨
    (l.opening.pos + l.text.header.length + crlf.length ≤ pos ∧ pos + crlf.length ≤ l.closing.pos)

/-- A literal behind a token. -/
def LiteralBetween.behind {c d e : Cursor} {t : Token} (l : LiteralBetween d e)
    (h : token c = .ok t d) : LiteralBetween c e :=
  { l with front := t :: l.front, reads_front := .cons h l.reads_front }

/-- A line terminator in what is written for a literal stands behind its header or in its data. -/
theorem length_eq_or_le_of_break {l : LiteralText} {before after : Bytes}
    (h : l.bytes = before ++ (crlf ++ after)) :
    before.length = l.header.length ∨ l.header.length + crlf.length ≤ before.length := by
  rw [l.bytes_eq] at h
  rcases List.append_eq_append_iff.mp h with ⟨cs, rfl, hcs⟩ | ⟨cs, hheader, hcs⟩
  · cases cs with
    | nil => exact .inl (by simp)
    | cons b cs =>
      cases cs with
      | nil => cases hcs
      | cons b' cs =>
        refine .inr ?_
        simp [crlf]
  · cases cs with
    | nil => exact .inl (by simp [hheader])
    | cons b cs =>
      obtain ⟨rfl, -⟩ := List.cons.inj hcs
      exact absurd rfl (l.ne_break_of_mem_header Ascii.cr (by simp [hheader])).1

/-- Tokens that are read on the way to a later place do not begin with the second half of a line
terminator. -/
theorem Yields.rest_ne {c d : Cursor} {ts : List Token} (h : Yields c ts d)
    (hend : .endOfInput ∉ ts) (after : Bytes) : c.rest ≠ Ascii.lf :: (after ++ d.rest) := by
  intro hrest
  cases h with
  | nil =>
    have hlength := congrArg List.length hrest
    simp only [List.length_cons, List.length_append] at hlength
    omega
  | cons hread _ =>
    rw [List.mem_cons, not_or] at hend
    obtain ⟨bs, hbs, hc, -⟩ := exists_written hread (Ne.symm hend.1)
    obtain ⟨b, tail, rfl, hb⟩ := hbs.exists_head
    rw [hc] at hrest
    exact hb (List.cons.inj hrest).1

/-- A line terminator in what is written for a token is one of the token's own, and the token is a
literal, unless it is the end of a line. -/
theorem exists_literal_of_token {c c₁ d : Cursor} {t : Token} {ts : List Token} {before cs : Bytes}
    (hread : token c = .ok t c₁) (hrest : Yields c₁ ts d) (hline : t ≠ .lineEnd)
    (hbs : t.WrittenAs (before ++ Ascii.cr :: Ascii.lf :: cs))
    (hc : c.rest = before ++ Ascii.cr :: Ascii.lf :: cs ++ c₁.rest)
    (hpos : c₁.pos = c.pos + (before ++ Ascii.cr :: Ascii.lf :: cs).length) :
    ∃ l : LiteralBetween c d, l.OwnsBreak (c.pos + before.length) := by
  obtain ⟨data, rfl⟩ : ∃ data, t = .literal data := by
    by_contra hliteral
    have hplain := hbs.ne_break_of_mem hline (not_exists.mp hliteral)
    exact (hplain Ascii.cr (by simp)).1 rfl
  generalize hbytes : before ++ Ascii.cr :: Ascii.lf :: cs = bs at hbs hc hpos
  cases hbs with
  | literal l =>
    refine ⟨⟨[], l, ts, c, c₁, .nil c, hread, hrest, hc⟩, ?_⟩
    rcases length_eq_or_le_of_break hbytes.symm with heq | hle
    · exact .inl (congrArg (c.pos + ·) heq)
    · have hafter : before.length + crlf.length ≤ l.bytes.length := by
        rw [← hbytes]
        simp [crlf]
      refine .inr ⟨?_, ?_⟩ <;> dsimp only <;> omega

/-- Where no line terminator is a token, every terminator that was passed belongs to a literal. -/
theorem Yields.exists_literal {c d : Cursor} {ts : List Token} (h : Yields c ts d)
    (hend : .endOfInput ∉ ts) (hline : .lineEnd ∉ ts) {before after : Bytes}
    (hbytes : c.rest = before ++ (crlf ++ (after ++ d.rest))) :
    ∃ l : LiteralBetween c d, l.OwnsBreak (c.pos + before.length) := by
  induction h generalizing before with
  | nil =>
    have hlength := congrArg List.length hbytes
    simp only [crlf, List.length_cons, List.length_append] at hlength
    omega
  | @cons c c₁ d t ts hread hrest ih =>
    rw [List.mem_cons, not_or] at hend hline
    obtain ⟨bs, hbs, hc, hpos, -⟩ := exists_written hread (Ne.symm hend.1)
    have hbehind : ∀ before' : Bytes, before = bs ++ before' →
        c₁.rest = before' ++ (crlf ++ (after ++ d.rest)) →
        ∃ l : LiteralBetween c d, l.OwnsBreak (c.pos + before.length) := by
      rintro before' rfl hrest
      obtain ⟨l, hl⟩ := ih hend.2 hline.2 hrest
      rw [hpos, Nat.add_assoc, ← List.length_append] at hl
      exact ⟨l.behind hread, hl⟩
    rw [hc] at hbytes
    rcases List.append_eq_append_iff.mp hbytes with ⟨before', hbefore, hafter⟩ | ⟨cs, rfl, hcs⟩
    · exact hbehind before' hbefore hafter
    · cases cs with
      | nil => exact hbehind [] (by simp) hcs.symm
      | cons b cs =>
        cases cs with
        | nil => exact absurd (List.cons.inj hcs).2.symm (hrest.rest_ne hend.2 after)
        | cons b' cs =>
          obtain ⟨rfl, htail⟩ := List.cons.inj hcs
          obtain ⟨rfl, -⟩ := List.cons.inj htail
          exact exists_literal_of_token hread hrest (Ne.symm hline.1) hbs hc hpos

/-! ### Values -/

/-- A value is read over if, and only if, the tokens that come next begin with one. Reading stops
behind its last token, and every line terminator in front of that place ends the header of a
literal or is part of its data. -/
theorem discardValue_eq_ok_iff (c d : Cursor) :
    (discardValue c = .ok () d ↔ ∃ ts, Token.IsValue ts ∧ Yields c ts d) ∧
      ∀ before after, discardValue c = .ok () d →
        c.rest = before ++ (crlf ++ (after ++ d.rest)) →
        ∃ l : LiteralBetween c d, l.OwnsBreak (c.pos + before.length) := by
  refine ⟨⟨exists_value, ?_⟩, ?_⟩
  · rintro ⟨ts, hvalue, hread⟩
    exact discardValue_of_value hvalue hread
  · intro before after h hbytes
    obtain ⟨ts, hvalue, hread⟩ := exists_value h
    have hend : Token.endOfInput ∉ ts := fun hmem => absurd (hvalue.mem_cases hmem) (by decide)
    have hline : Token.lineEnd ∉ ts := fun hmem => absurd (hvalue.mem_cases hmem) (by decide)
    exact hread.exists_literal hend hline hbytes

/-- Parentheses in strings count for nothing, and neither do line terminators in a literal. -/
theorem discardValue_parenthesesInside :
    let c : Cursor := ⟨5, utf8 "(a {4}\r\n)\r\n( \")\") NEXT"⟩
    let d : Cursor := ⟨22, utf8 " NEXT"⟩
    discardValue c = .ok () d ∧ ∃ l : LiteralBetween c d, l.OwnsBreak 14 := by
  intro c d
  have hinner : Token.Balanced [.atom (utf8 "a"), .space, .literal (utf8 ")\r\n("), .space,
      .quoted ")"] :=
    .plain rfl (.plain rfl (.plain rfl (.plain rfl (.plain rfl .nil))))
  have hread : Yields c (.listStart :: ([.atom (utf8 "a"), .space, .literal (utf8 ")\r\n("), .space,
      .quoted ")"] ++ [.listEnd])) d :=
    .cons rfl (.cons rfl (.cons rfl (.cons rfl (.cons rfl (.cons rfl (.cons rfl (.nil d)))))))
  have hok : discardValue c = .ok () d :=
    (discardValue_eq_ok_iff c d).1.mpr ⟨_, .list hinner, hread⟩
  exact ⟨hok, (discardValue_eq_ok_iff c d).2 (utf8 "(a {4}\r\n)") (utf8 "( \")\")") hok rfl⟩

end Scan

end ImapSearch
