import ImapSearch.Proofs.Response.FirstToken
import ImapSearch.Proofs.Scan.Atom
import Mathlib.Data.List.TakeWhile

/-!
# ImapSearch.Proofs.Scan.Written

**How tokens are written.** `Token.WrittenAs t bs` says that the bytes `bs` write the
token `t`. Punctuation and the line terminator are written in one way only. The other
tokens leave a choice: the case of the letters in `NIL`, zeros in front of a number, and
the form of the header of a literal.

The reader of tokens agrees with that. Bytes that write a token are read as that token, as
long as no atom character follows a word (`Scan.gives_written`). Conversely, a token that
was read was written by the bytes that were read (`Scan.exists_written`).
-/

namespace ImapSearch

namespace Token

/-- Whether the token is a run of atom characters, so that it ends where they do. -/
def isWord : Token → Bool
  | .atom _ | .number _ | .nil => true
  | _ => false

/-- Whether the token is written with an atom character in front: a word, or punctuation that is
an atom character inside of words. -/
def beginsAsWord : Token → Bool
  | .atom _ | .number _ | .nil | .continuation | .codeStart => true
  | _ => false

/-- How a token is written. -/
inductive WrittenAs : Token → Bytes → Prop
  | atom (a : PlainAtom) : WrittenAs (.atom a.bytes) a.bytes
  /-- A number of 32 bits, with or without zeros in front. -/
  | number {n : Nat} {digits : Bytes} (h : Decimal.decode? digits = some n) (hn : n < 2 ^ 32) :
      WrittenAs (.number n) digits
  /-- The word `NIL` in any case. -/
  | nil (word : Spelling (utf8 "NIL")) : WrittenAs .nil word.bytes
  | quoted (q : QuotedText) : WrittenAs (.quoted q.text) (Text.quoted (utf8 q.text))
  | literal (l : LiteralText) : WrittenAs (.literal l.data) l.bytes
  | listStart : WrittenAs .listStart [Ascii.openParen]
  | listEnd : WrittenAs .listEnd [Ascii.closeParen]
  | codeStart : WrittenAs .codeStart [Ascii.openBracket]
  | codeEnd : WrittenAs .codeEnd [Ascii.closeBracket]
  | space : WrittenAs .space [Ascii.space]
  | untagged : WrittenAs .untagged [Ascii.star]
  | continuation : WrittenAs .continuation [Ascii.plus]
  | lineEnd : WrittenAs .lineEnd crlf

end Token

namespace Spelling

variable (word : Spelling (utf8 "NIL"))

theorem isAtomByte_of_mem_nil : ∀ b ∈ word.bytes, isAtomByte b := by
  rw [← List.all_eq_true, ← all_isAtomByte_upperCase, word.isKeyword]
  decide

/-- The letters of `NIL` in any case. -/
def nilWord : Word where
  bytes := word.bytes
  ne_nil := by
    intro hnil
    have hkeyword := word.isKeyword
    rw [hnil] at hkeyword
    exact absurd hkeyword (by decide)
  isAtom := word.isAtomByte_of_mem_nil

theorem wordToken?_nilWord : wordToken? word.nilWord.bytes = some .nil := by
  have hopens : ¬ opensWithPunctuation word.bytes := by
    rw [← opensWithPunctuation_upperCase, word.isKeyword]
    decide
  have hdigits : ¬ word.bytes.all Ascii.isDigit := by
    rw [← all_isDigit_upperCase, word.isKeyword]
    decide
  rw [nilWord, wordToken?, if_neg hopens, if_neg hdigits, if_pos word.isKeyword]

end Spelling

namespace Token.WrittenAs

variable {t : Token} {bs : Bytes}

/-- A word is written in atom characters, and they are no other token. -/
theorem exists_word (h : t.WrittenAs bs) (ht : t.isWord) :
    ∃ w : Word, w.bytes = bs ∧ wordToken? w.bytes = some t := by
  cases h with
  | atom a =>
    refine ⟨a.toWord, rfl, ?_⟩
    rw [wordToken?, if_neg a.not_opens, if_neg a.not_digits, if_neg a.not_nil]
  | @number n _ h hn =>
    have hread : Decimal.decodeBelow? numberBound bs = some n := by
      rw [Decimal.decodeBelow?_eq_filter, h]
      exact Option.filter_eq_some_iff.mpr ⟨rfl, decide_eq_true hn⟩
    obtain ⟨hne, hdigits⟩ := Decimal.isDigit_of_decodeBelow? hread
    refine ⟨⟨bs, hne, fun b hb => isAtomByte_of_isDigit (hdigits b hb)⟩, rfl, ?_⟩
    rw [wordToken?_of_isDigit hdigits, hread]
    rfl
  | nil word => exact ⟨word.nilWord, rfl, word.wordToken?_nilWord⟩
  | _ => cases ht

/-- A word goes on with what stands behind it if that begins with an atom character. -/
theorem endsWord_append_iff (h : t.WrittenAs bs) (rest : Bytes) :
    EndsWord (bs ++ rest) ↔ ¬ t.beginsAsWord := by
  have hword : t.isWord → ¬ EndsWord (bs ++ rest) := by
    intro ht hends
    obtain ⟨⟨_ | ⟨b, tail⟩, hne, hatoms⟩, rfl, -⟩ := h.exists_word ht
    · exact hne rfl
    · exact hends b rfl (hatoms b List.mem_cons_self)
  cases h with
  | atom | number | nil => exact iff_of_false (hword rfl) (not_not.mpr rfl)
  | continuation | codeStart =>
    exact iff_of_false (fun hends => hends _ rfl (by decide)) (not_not.mpr rfl)
  | _ => exact iff_of_true (endsWord_cons (by decide) _) (by simp [beginsAsWord])

end Token.WrittenAs

/-! ### Line breaks -/

/-- No token begins with the second half of a line terminator. -/
theorem Token.WrittenAs.exists_head {t : Token} {bs : Bytes} (h : t.WrittenAs bs) :
    ∃ b tail, bs = b :: tail ∧ b ≠ Ascii.lf := by
  by_cases hword : t.isWord
  · obtain ⟨⟨_ | ⟨b, tail⟩, hne, hatoms⟩, rfl, -⟩ := h.exists_word hword
    · exact absurd rfl hne
    · refine ⟨b, tail, rfl, ?_⟩
      rintro rfl
      exact absurd (hatoms _ List.mem_cons_self) (by decide)
  · cases h with
    | atom | number | nil => exact absurd rfl hword
    | _ => exact ⟨_, _, rfl, by decide⟩

/-- The header of a literal, which a line terminator and the data follow. -/
def LiteralText.header (l : LiteralText) : Bytes :=
  Ascii.openBrace ::
    (l.digits ++ ((if l.plus then [Ascii.plus] else []) ++ [Ascii.closeBrace]))

theorem LiteralText.bytes_eq (l : LiteralText) : l.bytes = l.header ++ (crlf ++ l.data) := by
  simp [bytes, header]

theorem LiteralText.ne_break_of_mem_header (l : LiteralText) :
    ∀ b ∈ l.header, b ≠ Ascii.cr ∧ b ≠ Ascii.lf := by
  have hdigits : ∀ b ∈ l.digits, b ≠ Ascii.cr ∧ b ≠ Ascii.lf := by
    intro b hb
    have hdigit := (Decimal.isDigit_of_decodeBelow? l.size).2 b hb
    exact ⟨Decimal.ne_of_isDigit hdigit (by decide), Decimal.ne_of_isDigit hdigit (by decide)⟩
  have hplus : ∀ b ∈ if l.plus then [Ascii.plus] else [], b ≠ Ascii.cr ∧ b ≠ Ascii.lf := by
    split
    · exact List.forall_mem_singleton.mpr (by decide)
    · exact List.forall_mem_nil _
  refine List.forall_mem_cons.mpr ⟨by decide, List.forall_mem_append.mpr ⟨hdigits, ?_⟩⟩
  exact List.forall_mem_append.mpr ⟨hplus, List.forall_mem_singleton.mpr (by decide)⟩

/-- A byte that is quoted is written as itself and perhaps a backslash. -/
theorem Text.eq_or_eq_of_mem_quoted {bs : Bytes} {b : UInt8} (h : b ∈ quoted bs) :
    b = Ascii.quote ∨ b = Ascii.backslash ∨ b ∈ bs := by
  simp only [quoted, List.mem_cons, List.mem_append, List.mem_flatMap, List.not_mem_nil,
    or_false] at h
  rcases h with (rfl | ⟨c, hc, hb⟩) | rfl
  · exact .inl rfl
  · unfold quoteByte at hb
    grind
  · exact .inl rfl

/-- Of all tokens only the line terminator and literals are written with a byte of a line break. -/
theorem Token.WrittenAs.ne_break_of_mem {t : Token} {bs : Bytes} (h : t.WrittenAs bs)
    (hline : t ≠ .lineEnd) (hliteral : ∀ data, t ≠ .literal data) :
    ∀ b ∈ bs, b ≠ Ascii.cr ∧ b ≠ Ascii.lf := by
  intro b hb
  by_cases hword : t.isWord
  · obtain ⟨w, rfl, -⟩ := h.exists_word hword
    have hatom := w.isAtom b hb
    constructor <;> (rintro rfl; exact absurd hatom (by decide))
  · cases h with
    | atom | number | nil => exact absurd rfl hword
    | literal l => exact absurd rfl (hliteral l.data)
    | lineEnd => exact absurd rfl hline
    | quoted q =>
      rcases Text.eq_or_eq_of_mem_quoted hb with rfl | rfl | hmem
      · decide
      · decide
      · exact q.oneLine b hmem
    | _ =>
      obtain rfl := List.mem_singleton.mp hb
      decide

namespace Scan

/-! ### What is written is read -/

/-- What is written for a token is read as that token, as long as no atom character follows a
word. -/
theorem gives_written {t : Token} {bs : Bytes} (h : t.WrittenAs bs) :
    token.Gives (fun rest => t.isWord → EndsWord rest) bs (some t) := by
  by_cases hword : t.isWord
  · obtain ⟨w, rfl, hw⟩ := h.exists_word hword
    exact fun pos rest hrest => gives_scalar (s := .word w) hw pos rest (hrest hword)
  · cases h with
    | atom | number | nil => exact absurd rfl hword
    | quoted q => exact gives_quoted q
    | literal l => exact gives_literal l
    | lineEnd => exact fun _ _ _ => rfl
    | _ => exact gives_token_punctuation rfl

/-! ### What is read was written -/

theorem of_eat {b : UInt8} {c d : Cursor} {found : Bool} (h : eat b c = .ok found d) :
    (found = true ∧ c.rest = b :: d.rest) ∨ (found = false ∧ d = c) := by
  unfold eat at h
  split at h
  next hpeek =>
    obtain ⟨rest, hrest⟩ := List.head?_eq_some_iff.mp hpeek
    cases h
    exact .inl ⟨rfl, by rw [Cursor.skip, hrest]; rfl⟩
  next =>
    cases h
    exact .inr ⟨rfl, rfl⟩

/-- What the reader of literals goes on with is behind the byte that it asked for. -/
theorem rest_of_eat {b : UInt8} {c d : Cursor} {found : Bool} (h : eat b c = .ok found d)
    (hfound : ¬ (!found) = true) : c.rest = b :: d.rest := by
  rcases of_eat h with ⟨-, hrest⟩ | ⟨rfl, -⟩
  · exact hrest
  · exact absurd rfl hfound

theorem of_take? {n : Nat} {c d : Cursor} {data : Bytes} (h : take? n c = .ok (some data) d) :
    c.rest = data ++ d.rest ∧ data.length = n := by
  unfold take? at h
  split at h
  next hlength =>
    cases h
    exact ⟨(List.take_append_drop n c.rest).symm, hlength⟩
  next => cases h

/-- The content of a quoted string was written as its bytes are between quotes. -/
theorem of_quotedBytes {pos : Nat} {bs content : Bytes} {d : Cursor}
    (h : quotedBytes pos bs = .ok content d) :
    bs = content.flatMap Text.quoteByte ++ Ascii.quote :: d.rest ∧
      ∀ b ∈ content, b ≠ Ascii.cr ∧ b ≠ Ascii.lf := by
  fun_induction quotedBytes pos bs generalizing content d with
  | case1 => cases h
  | case2 =>
    cases h
    exact ⟨rfl, by simp⟩
  | case3 => cases h
  | case4 pos e rest' hescape content' d' hread _ ih =>
    cases h
    obtain ⟨hrest, hcontent⟩ := ih hread
    refine ⟨?_, List.forall_mem_cons.mpr ⟨?_, hcontent⟩⟩
    · rw [List.flatMap_cons, Text.quoteByte, if_pos hescape, hrest]
      rfl
    · rcases hescape with rfl | rfl <;> decide
  | case5 => cases h
  | case6 => cases h
  | case7 => cases h
  | case8 pos b rest hquote hbackslash hbreak content' d' hread ih =>
    cases h
    obtain ⟨hrest, hcontent⟩ := ih hread
    rw [not_or] at hbreak
    refine ⟨?_, List.forall_mem_cons.mpr ⟨hbreak, hcontent⟩⟩
    rw [List.flatMap_cons, Text.quoteByte, if_neg (not_or.mpr ⟨hquote, hbackslash⟩), hrest]
    rfl
  | case9 => cases h

theorem of_quotedString {c d : Cursor} {t : Token} (h : quotedString c = .ok t d) :
    ∃ q : QuotedText, t = .quoted q.text ∧
      Ascii.quote :: c.rest = Text.quoted (utf8 q.text) ++ d.rest := by
  obtain ⟨content, d', hread, h⟩ := exists_of_bind h
  have hread : quotedBytes c.pos c.rest = .ok content d' := hread
  obtain ⟨hrest, hcontent⟩ := of_quotedBytes hread
  cases htext : ofUtf8? content with
  | none =>
    rw [htext] at h
    cases h
  | some text =>
    rw [htext] at h
    cases h
    obtain rfl := utf8_of_ofUtf8? htext
    refine ⟨⟨text, hcontent⟩, rfl, ?_⟩
    rw [hrest]
    simp [Text.quoted]

theorem of_literal {c d : Cursor} {t : Token} (h : literal c = .ok t d) :
    ∃ l : LiteralText, t = .literal l.data ∧ Ascii.openBrace :: c.rest = l.bytes ++ d.rest := by
  obtain ⟨digits, c₁, hdigits, h⟩ := exists_of_bind h
  have hrest : c.rest = digits ++ c₁.rest := by
    cases hdigits
    exact (List.prefix_iff_eq_append.mp (List.takeWhile_prefix Ascii.isDigit)).symm
  cases hsize : Decimal.decodeBelow? sizeBound digits with
  | none =>
    rw [hsize] at h
    cases h
  | some size =>
    rw [hsize] at h
    obtain ⟨plus, c₂, hplus, h⟩ := exists_of_bind h
    obtain ⟨brace, c₃, hbrace, h⟩ := exists_of_bind h
    split at h
    next => cases h
    next hfound =>
      obtain ⟨cr, c₄, hcr, h⟩ := exists_of_bind h
      split at h
      next => cases h
      next hcrFound =>
        obtain ⟨lf, c₅, hlf, h⟩ := exists_of_bind h
        split at h
        next => cases h
        next hlfFound =>
          obtain ⟨data?, c₆, htake, h⟩ := exists_of_bind h
          split at h
          next data =>
            cases h
            obtain ⟨hdata, hlength⟩ := of_take? htake
            have hplus : c₁.rest = (if plus then [Ascii.plus] else []) ++ c₂.rest := by
              rcases of_eat hplus with ⟨rfl, hrest⟩ | ⟨rfl, rfl⟩
              · exact hrest
              · rfl
            refine ⟨⟨digits, plus, data, hlength ▸ hsize⟩, rfl, ?_⟩
            rw [hrest, hplus, rest_of_eat hbrace hfound, rest_of_eat hcr hcrFound,
              rest_of_eat hlf hlfFound, hdata]
            simp [LiteralText.bytes, crlf]
          next => cases h

/-- A word was read as a whole, and it ended where it was read. -/
theorem exists_word_of_token {c d : Cursor} {t : Token} {b : UInt8} {rest : Bytes}
    (hc : c.rest = b :: rest) (hatom : isAtomByte b) (hb : punctuation? b = none)
    (hword : word c = .ok t d) (h : token c = .ok t d) :
    ∃ w : Word, c.rest = w.bytes ++ d.rest ∧ EndsWord d.rest ∧ wordToken? w.bytes = some t := by
  obtain ⟨hrest, -⟩ := of_word hword
  have hrun : c.rest.takeWhile isAtomByte = b :: rest.takeWhile isAtomByte := by
    rw [hc, List.takeWhile_cons_of_pos hatom]
  have hopens : ¬ opensWithPunctuation (c.rest.takeWhile isAtomByte) := by
    simp only [hrun, opensWithPunctuation, List.head?_cons, Option.some.injEq, Bool.or_eq_true,
      decide_eq_true_eq]
    rintro (rfl | rfl) <;> cases hb
  have hends : EndsWord d.rest := by
    have hsplit := List.takeWhile_append_dropWhile (p := isAtomByte) (l := c.rest)
    rw [← List.append_cancel_left (hsplit.trans hrest)]
    intro b hb
    have hnot := List.head?_dropWhile_not isAtomByte c.rest
    rw [Option.mem_def.mp hb] at hnot
    simpa using hnot
  let w : Word := {
    bytes := c.rest.takeWhile isAtomByte
    ne_nil := by simp [hrun]
    isAtom := fun _ hb => List.mem_takeWhile_imp hb }
  have hgives : token.Gives EndsWord w.bytes (wordToken? w.bytes) := gives_word hopens
  have hcursor : c = ⟨c.pos, w.bytes ++ d.rest⟩ := by rw [← hrest]
  refine ⟨w, hrest, hends, ?_⟩
  cases hw : wordToken? w.bytes with
  | none =>
    rw [hw] at hgives
    obtain ⟨e, d', herror⟩ := hgives c.pos d.rest hends
    rw [← hcursor, h] at herror
    cases herror
  | some t' =>
    rw [hw] at hgives
    have hread := hgives c.pos d.rest hends
    rw [← hcursor, h, EStateM.Result.ok.injEq] at hread
    rw [hread.1]

theorem written_of_punctuation? {b : UInt8} {t : Token} (h : punctuation? b = some t) :
    t.WrittenAs [b] := by
  unfold punctuation? at h
  split at h
  next hb => cases h; exact hb ▸ .space
  split at h
  next hb => cases h; exact hb ▸ .listStart
  split at h
  next hb => cases h; exact hb ▸ .listEnd
  split at h
  next hb => cases h; exact hb ▸ .codeStart
  split at h
  next hb => cases h; exact hb ▸ .codeEnd
  split at h
  next hb => cases h; exact hb ▸ .untagged
  split at h
  next hb => cases h; exact hb ▸ .continuation
  next => cases h

theorem written_of_wordToken? {w : Word} {t : Token} (h : wordToken? w.bytes = some t) :
    t.WrittenAs w.bytes := by
  unfold wordToken? at h
  split at h
  next => cases h
  next hopens =>
    split at h
    next =>
      obtain ⟨n, hn, rfl⟩ := Option.map_eq_some_iff.mp h
      rw [Decimal.decodeBelow?_eq_filter] at hn
      obtain ⟨hread, hlt⟩ := Option.filter_eq_some_iff.mp hn
      exact .number hread (of_decide_eq_true hlt)
    next hdigits =>
      split at h
      next hnil =>
        cases h
        exact .nil ⟨w.bytes, hnil⟩
      next hnil =>
        cases h
        exact .atom ⟨w, hopens, hdigits, hnil⟩

/-- A token was read from what is written for it, or there was nothing left to read. -/
theorem cases_of_token {c d : Cursor} {t : Token} (h : token c = .ok t d) :
    (c.rest = [] ∧ t = .endOfInput ∧ d = c) ∨
      ∃ bs, t.WrittenAs bs ∧ c.rest = bs ++ d.rest ∧ (t.isWord → EndsWord d.rest) := by
  obtain ⟨pos, input⟩ := c
  have hread := h
  unfold token at h
  split at h
  next hinput =>
    cases h
    exact .inl ⟨hinput, rfl, rfl⟩
  next b rest hinput =>
    subst hinput
    refine .inr ?_
    split at h
    next t' hpunctuation =>
      cases h
      refine ⟨[b], written_of_punctuation? hpunctuation, rfl, fun hword => ?_⟩
      grind [punctuation?, Token.isWord]
    next hpunctuation =>
      split at h
      next hcrlf =>
        cases h
        obtain ⟨rfl, hlf⟩ := hcrlf
        obtain ⟨tail, rfl⟩ := List.head?_eq_some_iff.mp hlf
        exact ⟨crlf, .lineEnd, rfl, by simp [Token.isWord]⟩
      next =>
        split at h
        next hquote =>
          subst hquote
          obtain ⟨q, rfl, hrest⟩ := of_quotedString h
          exact ⟨_, .quoted q, hrest, by simp [Token.isWord]⟩
        next =>
          split at h
          next hbrace =>
            subst hbrace
            obtain ⟨l, rfl, hrest⟩ := of_literal h
            exact ⟨_, .literal l, hrest, by simp [Token.isWord]⟩
          next =>
            split at h
            next hatom =>
              obtain ⟨w, hrest, hends, hw⟩ := exists_word_of_token rfl hatom hpunctuation h hread
              exact ⟨w.bytes, written_of_wordToken? hw, hrest, fun _ => hends⟩
            next => cases h

/-- Only behind the last byte the token says that the input is over. -/
theorem token_eq_end_iff {c d : Cursor} : token c = .ok .endOfInput d ↔ c.rest = [] ∧ d = c := by
  constructor
  · intro h
    obtain ⟨hc, -, hd⟩ | ⟨bs, hbs, -⟩ := cases_of_token h
    · exact ⟨hc, hd⟩
    · cases hbs
  · rintro ⟨hc, rfl⟩
    rw [token, hc]

/-- Short of the end of the input, a token was read from what is written for it, and reading stopped
behind that. -/
theorem exists_written {c d : Cursor} {t : Token} (h : token c = .ok t d)
    (ht : t ≠ .endOfInput) :
    ∃ bs, t.WrittenAs bs ∧ c.rest = bs ++ d.rest ∧ d.pos = c.pos + bs.length ∧
      (t.isWord → EndsWord d.rest) := by
  obtain ⟨bs, hbs, hrest, hends⟩ := (cases_of_token h).resolve_left fun hend => ht hend.2.1
  obtain ⟨read, hread, hpos⟩ := forward_token.ok h
  obtain rfl : bs = read := List.append_cancel_right (hrest.symm.trans hread)
  exact ⟨bs, hbs, hrest, hpos, hends⟩

/-- An atom was read from what is written for it. -/
theorem exists_plainAtom_of_token {c d : Cursor} {name : Bytes}
    (h : token c = .ok (.atom name) d) :
    ∃ a : PlainAtom, a.bytes = name ∧ c.rest = a.bytes ++ d.rest ∧ EndsWord d.rest := by
  obtain ⟨bs, hbs, hrest, -, hends⟩ := exists_written h (by simp)
  cases hbs with
  | atom a => exact ⟨a, rfl, hrest, hends rfl⟩

end Scan

end ImapSearch
