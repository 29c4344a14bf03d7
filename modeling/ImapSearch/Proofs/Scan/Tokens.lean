import ImapSearch.Proofs.Scan.Written

/-!
# ImapSearch.Proofs.Scan.Tokens

**Token after token.** `Scan.Yields c ts d` says that reading on from `c` gives the tokens
`ts` one by one and comes to `d`. Bytes that write the tokens in order
(`Token.ListWrittenAs`) are read like that unless two of them run together
(`Scan.yields_written`): a word takes up every atom character that follows it, so that the
next token must not be a word, a plus sign or an opening bracket (`Token.Separate`).

For complete inputs this is a round trip (`Scan.tokens_eq_iff`).
-/

namespace ImapSearch

/-! ### Lists of tokens -/

namespace Token

/-- How tokens are written one after another. -/
inductive ListWrittenAs : List Token → Bytes → Prop
  | nil : ListWrittenAs [] []
  | cons {t : Token} {ts : List Token} {bs rest : Bytes} (h : t.WrittenAs bs)
      (hrest : ListWrittenAs ts rest) : ListWrittenAs (t :: ts) (bs ++ rest)

/-- Whether the second token is a token of its own behind the first. -/
def Separate (t next : Token) : Prop := t.isWord → ¬ next.beginsAsWord

theorem ListWrittenAs.end_notMem {ts : List Token} {bs : Bytes} (h : ListWrittenAs ts bs) :
    .endOfInput ∉ ts := by
  induction h with
  | nil => simp
  | cons ht _ ih =>
    rw [List.mem_cons, not_or]
    refine ⟨?_, ih⟩
    rintro rfl
    cases ht

/-- A word ends in front of these tokens if the first of them is a token of its own. -/
theorem ListWrittenAs.endsWord_append_iff {ts : List Token} {bs rest : Bytes}
    (h : ListWrittenAs ts bs) :
    EndsWord (bs ++ rest) ↔
      (∀ t ∈ ts.head?, ¬ t.beginsAsWord) ∧ (ts = [] → EndsWord rest) := by
  cases h with
  | nil => simp
  | cons ht _ =>
    rw [List.append_assoc, ht.endsWord_append_iff]
    simp

/-- A token in front of others is a token of its own if it ends where they begin. -/
theorem ListWrittenAs.separate_cons_iff {ts : List Token} {bs rest : Bytes}
    (h : ListWrittenAs ts bs) (t : Token) :
    ((t :: ts).IsChain Separate ∧ ∀ u ∈ (t :: ts).getLast?, u.isWord → EndsWord rest) ↔
      (t.isWord → EndsWord (bs ++ rest)) ∧ ts.IsChain Separate ∧
        ∀ u ∈ ts.getLast?, u.isWord → EndsWord rest := by
  rw [h.endsWord_append_iff]
  cases ts with
  | nil => simp
  | cons u us => simp [Separate, and_assoc]

end Token

namespace Scan

/-! ### One token after another -/

/-- Reading token after token leads from one place to another. -/
inductive Yields : Cursor → List Token → Cursor → Prop
  | nil (c : Cursor) : Yields c [] c
  | cons {c d e : Cursor} {t : Token} {ts : List Token} (h : token c = .ok t d)
      (hrest : Yields d ts e) : Yields c (t :: ts) e

theorem Yields.append {c d e : Cursor} {ts us : List Token} (h : Yields c ts d)
    (hmore : Yields d us e) : Yields c (ts ++ us) e := by
  induction h with
  | nil => exact hmore
  | cons h _ ih => exact .cons h (ih hmore)

theorem Yields.exists_of_append {c e : Cursor} {ts us : List Token} (h : Yields c (ts ++ us) e) :
    ∃ d, Yields c ts d ∧ Yields d us e := by
  induction ts generalizing c with
  | nil => exact ⟨c, .nil c, h⟩
  | cons t ts ih =>
    cases h with
    | cons hread hrest =>
      obtain ⟨d, hts, hus⟩ := ih hrest
      exact ⟨d, .cons hread hts, hus⟩

theorem Yields.single {c d : Cursor} {t : Token} (h : token c = .ok t d) : Yields c [t] d :=
  .cons h (.nil d)

/-- Tokens that were read one after another were written like that, and none of them runs together
with what follows it. -/
theorem Yields.exists_listWritten {c d : Cursor} {ts : List Token} (h : Yields c ts d)
    (hend : .endOfInput ∉ ts) :
    ∃ bs, Token.ListWrittenAs ts bs ∧ c.rest = bs ++ d.rest ∧ ts.IsChain Token.Separate ∧
      ∀ t ∈ ts.getLast?, t.isWord → EndsWord d.rest := by
  induction h with
  | nil => exact ⟨[], .nil, rfl, .nil, by simp⟩
  | @cons c c₁ d t ts hread _ ih =>
    rw [List.mem_cons, not_or] at hend
    obtain ⟨bs, hbs, hc, -, hends⟩ := exists_written hread (Ne.symm hend.1)
    obtain ⟨cs, hcs, hc₁, hseparate⟩ := ih hend.2
    refine ⟨bs ++ cs, .cons hbs hcs, by rw [hc, hc₁, List.append_assoc], ?_⟩
    rw [hc₁] at hends
    exact (hcs.separate_cons_iff t).mpr ⟨hends, hseparate⟩

/-- What is written for tokens is read as these tokens, if none of them runs together with what
follows it. -/
theorem yields_written {ts : List Token} {bs rest : Bytes} (h : Token.ListWrittenAs ts bs)
    (hchain : ts.IsChain Token.Separate) (hlast : ∀ t ∈ ts.getLast?, t.isWord → EndsWord rest)
    (pos : Nat) : Yields ⟨pos, bs ++ rest⟩ ts ⟨pos + bs.length, rest⟩ := by
  induction h generalizing pos with
  | nil => exact .nil _
  | @cons t ts bs cs hbs hcs ih =>
    obtain ⟨hends, hchain, hlast⟩ := (hcs.separate_cons_iff t).mp ⟨hchain, hlast⟩
    have hread := gives_written hbs pos (cs ++ rest) hends
    rw [List.append_assoc, List.length_append, ← Nat.add_assoc]
    exact .cons hread (ih hchain hlast (pos + bs.length))

/-! ### All tokens of an input -/

theorem tokens_of_token {c d : Cursor} {t : Token} (h : token c = .ok t d) (ht : t ≠ .endOfInput) :
    tokens c = { tokens d with tokens := t :: (tokens d).tokens } := by
  rw [tokens]
  split
  next h' =>
    rw [h] at h'
    cases h'
  next h' =>
    rw [h] at h'
    cases h'
    rw [dif_neg ht]

theorem tokens_of_end {c : Cursor} (h : c.rest = []) : tokens c = ⟨[], none, c⟩ := by
  have hend : token c = .ok .endOfInput c := token_eq_end_iff.mpr ⟨h, rfl⟩
  rw [tokens]
  split
  next h' =>
    rw [hend] at h'
    cases h'
  next h' =>
    rw [hend] at h'
    cases h'
    rfl

/-- Where tokens are read one after another, they are the first of all. -/
theorem Yields.tokens_eq {c d : Cursor} {ts : List Token} (h : Yields c ts d)
    (hend : .endOfInput ∉ ts) : tokens c = { tokens d with tokens := ts ++ (tokens d).tokens } := by
  induction h with
  | nil => rfl
  | cons hread _ ih =>
    rw [List.mem_cons, not_or] at hend
    rw [tokens_of_token hread (Ne.symm hend.1), ih hend.2]
    rfl

/-- All tokens are read one after another, and then there is no further token: the input is over or
an error comes up. -/
theorem yields_tokens (c : Cursor) : ∃ d, Yields c (tokens c).tokens d ∧
    .endOfInput ∉ (tokens c).tokens ∧
    ((tokens c).error = none ∧ token d = .ok .endOfInput (tokens c).stop ∨
      ∃ e, (tokens c).error = some e ∧ token d = .error e (tokens c).stop) := by
  fun_induction tokens c with
  | case1 c e d h => exact ⟨c, .nil c, by simp, .inr ⟨e, rfl, h⟩⟩
  | case2 c d h => exact ⟨c, .nil c, by simp, .inl ⟨rfl, h⟩⟩
  | case3 c t d h ht others ih =>
    obtain ⟨e, hread, hend, hstop⟩ := ih
    refine ⟨e, .cons h hread, ?_, hstop⟩
    rw [List.mem_cons, not_or]
    exact ⟨Ne.symm ht, hend⟩

/-- An input is read as these tokens and then is over if, and only if, it is what is written for
them, and none of them runs together with the next one. The size of a literal is a number of 64
bits, as is that of all data in memory. -/
theorem tokens_eq_iff {ts : List Token} {input : Bytes} :
    Yields (Cursor.start input) (ts ++ [.endOfInput]) ⟨input.length, []⟩ ∧
        tokens (Cursor.start input) = ⟨ts, none, ⟨input.length, []⟩⟩ ↔
      Token.ListWrittenAs ts input ∧ ts.IsChain Token.Separate := by
  constructor
  · rintro ⟨-, htokens⟩
    obtain ⟨d, hread, hend, hstop⟩ := yields_tokens (Cursor.start input)
    rw [htokens] at hread hend hstop
    have hover : token d = .ok .endOfInput ⟨input.length, []⟩ := by simpa using hstop
    obtain ⟨-, rfl⟩ := token_eq_end_iff.mp hover
    obtain ⟨bs, hbs, hinput, hchain, -⟩ := hread.exists_listWritten hend
    obtain rfl : input = bs := by simpa [Cursor.start] using hinput
    exact ⟨hbs, hchain⟩
  · rintro ⟨hwritten, hchain⟩
    have hread : Yields (Cursor.start input) ts ⟨input.length, []⟩ := by
      have hall : Yields ⟨0, input ++ []⟩ ts ⟨0 + input.length, []⟩ :=
        yields_written hwritten hchain (fun _ _ _ => by simp [EndsWord]) 0
      rw [List.append_nil, Nat.zero_add] at hall
      exact hall
    have hover : token ⟨input.length, []⟩ = .ok .endOfInput ⟨input.length, []⟩ :=
      token_eq_end_iff.mpr ⟨rfl, rfl⟩
    refine ⟨hread.append (.single hover), ?_⟩
    rw [hread.tokens_eq hwritten.end_notMem, tokens_of_end rfl, List.append_nil]

end Scan

end ImapSearch
