import ImapSearch.Proofs.Framing.Split
import ImapSearch.Proofs.Scan.Reads
import Mathlib.Data.List.TakeWhile

/-!
# ImapSearch.Proofs.Scan.InLine

**A token in a line.** The reader of tokens knows nothing of lines: it stands somewhere in
the content of a line, and behind the line there may be anything. But a token takes bytes
of the content alone, with two exceptions (`Scan.token_inLine`). Where the content is over,
the terminator is a token. And where what is left of the content is the header of a
literal, the whole of it and nothing else, the announced bytes behind the line are the data
of a literal. Only there can data be missing.
-/

namespace ImapSearch

/-- An error that says that the data of a literal are missing. -/
def Error.IsIncomplete (e : Error) : Prop := ∃ position, e = .malformed position .literalIncomplete

theorem not_isIncomplete_malformed {position : Nat} {fault : Fault}
    (h : fault ≠ .literalIncomplete) : ¬ (Error.malformed position fault).IsIncomplete := by
  rintro ⟨_, heq⟩
  cases heq
  exact h rfl

/-- A place that is reached from `pos` by reading bytes of the content of a line. -/
def Cursor.InLine (pos : Nat) (content beyond : Bytes) (c : Cursor) : Prop :=
  ∃ read left, content = read ++ left ∧ c = ⟨pos + read.length, left ++ crlf ++ beyond⟩

theorem Cursor.inLine_start (pos : Nat) (content beyond : Bytes) :
    Cursor.InLine pos content beyond ⟨pos, content ++ crlf ++ beyond⟩ :=
  ⟨[], content, rfl, rfl⟩

theorem Cursor.InLine.append {pos : Nat} {content beyond : Bytes} {c : Cursor} (read : Bytes)
    (h : Cursor.InLine (pos + read.length) content beyond c) :
    Cursor.InLine pos (read ++ content) beyond c := by
  obtain ⟨more, left, rfl, rfl⟩ := h
  refine ⟨read ++ more, left, (List.append_assoc _ _ _).symm, ?_⟩
  rw [List.length_append, Nat.add_assoc]

namespace Scan

/-- A scan that stays in the line, if it gives a value. -/
def StaysInLine {α : Type} (pos : Nat) (content beyond : Bytes) :
    EStateM.Result Error Cursor α → Prop
  | .ok _ d => d.InLine pos content beyond
  | .error e _ => ¬ e.IsIncomplete

/-- What the next token can be at a place where `content` is left of a line and `beyond` stands
behind the line. -/
inductive TokenInLine (pos : Nat) (content beyond : Bytes) :
    EStateM.Result Error Cursor Token → Prop
  /-- There is no token. -/
  | fails {e : Error} {d : Cursor} (h : ¬ e.IsIncomplete) :
      TokenInLine pos content beyond (.error e d)
  /-- A token is made of bytes of the content. -/
  | inside {t : Token} {d : Cursor} (h : d.InLine pos content beyond)
      (hliteral : ∀ data, t ≠ .literal data) : TokenInLine pos content beyond (.ok t d)
  /-- The content is over. -/
  | lineEnd {d : Cursor} : TokenInLine pos content beyond (.ok .lineEnd d)
  /-- The content that is left announces a literal, and its data stand behind the line. -/
  | literal {data after : Bytes} (hsize : Framing.headerSize? content = some data.length)
      (hbeyond : beyond = data ++ after) :
      TokenInLine pos content beyond
        (.ok (.literal data) ⟨pos + (content ++ crlf ++ data).length, after⟩)
  /-- The content that is left announces a literal, but there are not enough bytes behind it. -/
  | incomplete {size : Nat} {e : Error} {d : Cursor}
      (hsize : Framing.headerSize? content = some size) (hshort : beyond.length < size) :
      TokenInLine pos content beyond (.error e d)

variable {pos : Nat} {content beyond : Bytes}

/-! ### Words and quoted strings -/

/-- A run of bytes of a class that the terminator does not belong to ends in the line. -/
theorem takeWhile_inLine {p : UInt8 → Bool} (hp : ¬ p Ascii.cr) (pos : Nat)
    (content beyond : Bytes) : takeWhile p ⟨pos, content ++ crlf ++ beyond⟩ =
      .ok (content.takeWhile p) ⟨pos + (content.takeWhile p).length,
        content.dropWhile p ++ crlf ++ beyond⟩ := by
  have hrun : ∀ b ∈ content.takeWhile p, p b := fun b hb => List.mem_takeWhile_imp hb
  have hstop : ∀ b ∈ (content.dropWhile p ++ crlf ++ beyond).head?, ¬ p b := by
    cases hleft : content.dropWhile p with
    | nil => exact forall_mem_head?_cons hp _
    | cons b left =>
      have hb := List.head?_dropWhile_not p content
      rw [hleft] at hb
      exact forall_mem_head?_cons (by simpa using hb) _
  have hread := gives_takeWhile hrun (fun _ h => h) pos _ hstop
  rw [← List.append_assoc, ← List.append_assoc, List.takeWhile_append_dropWhile] at hread
  exact hread

theorem word_inLine : TokenInLine pos content beyond (word ⟨pos, content ++ crlf ++ beyond⟩) := by
  have hinside : Cursor.InLine pos content beyond ⟨pos + (content.takeWhile isAtomByte).length,
      content.dropWhile isAtomByte ++ crlf ++ beyond⟩ :=
    ⟨_, _, List.takeWhile_append_dropWhile.symm, rfl⟩
  rw [word, bind_apply, takeWhile_inLine (by decide)]
  dsimp only
  split
  · cases Decimal.decodeBelow? numberBound (content.takeWhile isAtomByte) with
    | none => exact .fails (not_isIncomplete_malformed (by simp))
    | some n => exact .inside hinside (by simp)
  · split
    · exact .inside hinside (by simp)
    · exact .inside hinside (by simp)

/-- A quoted string ends in the line or not at all. -/
theorem quotedBytes_inLine (beyond content : Bytes) (pos : Nat) :
    StaysInLine pos content beyond (quotedBytes pos (content ++ crlf ++ beyond)) := by
  induction hlength : content.length using Nat.strongRecOn generalizing content pos with
  | _ length ih =>
    cases content with
    | nil => exact not_isIncomplete_malformed (by simp)
    | cons b content =>
      rw [List.cons_append, List.cons_append, quotedBytes.eq_def]
      dsimp only
      by_cases hquote : b = Ascii.quote
      · rw [if_pos hquote]
        exact Cursor.InLine.append [b] (Cursor.inLine_start _ content beyond)
      rw [if_neg hquote]
      by_cases hescape : b = Ascii.backslash
      · rw [if_pos hescape]
        cases content with
        | nil => exact not_isIncomplete_malformed (by simp)
        | cons e content =>
          dsimp only [List.cons_append]
          split
          · have hshorter : content.length < length := by
              rw [← hlength, List.length_cons, List.length_cons]
              omega
            have hrest := ih _ hshorter content (pos + 2) rfl
            cases hread : quotedBytes (pos + 2) (content ++ crlf ++ beyond) with
            | error err d =>
              rw [hread] at hrest
              exact hrest
            | ok text d =>
              rw [hread] at hrest
              exact Cursor.InLine.append [b, e] hrest
          · exact not_isIncomplete_malformed (by simp)
      rw [if_neg hescape]
      split
      · exact not_isIncomplete_malformed (by simp)
      · have hshorter : content.length < length := by
          rw [← hlength]
          exact Nat.lt_succ_self _
        have hrest := ih _ hshorter content (pos + 1) rfl
        cases hread : quotedBytes (pos + 1) (content ++ crlf ++ beyond) with
        | error err d =>
          rw [hread] at hrest
          exact hrest
        | ok text d =>
          rw [hread] at hrest
          exact Cursor.InLine.append [b] hrest

theorem quotedString_inLine (b : UInt8) :
    TokenInLine pos (b :: content) beyond (quotedString ⟨pos + 1, content ++ crlf ++ beyond⟩) := by
  have hcontent := quotedBytes_inLine beyond content (pos + 1)
  rw [quotedString, bind_apply, quotedContent]
  dsimp only
  cases hread : quotedBytes (pos + 1) (content ++ crlf ++ beyond) with
  | error e d =>
    rw [hread] at hcontent
    exact .fails hcontent
  | ok text d =>
    rw [hread] at hcontent
    dsimp only
    cases ofUtf8? text with
    | none => exact .fails (not_isIncomplete_malformed (by simp))
    | some text => exact .inside (Cursor.InLine.append [b] hcontent) (by simp)

/-! ### Literals -/

theorem eat_head (b : UInt8) (pos : Nat) (rest : Bytes) :
    eat b ⟨pos, b :: rest⟩ = .ok true ⟨pos + 1, rest⟩ := if_pos rfl

theorem eat_of_ne {b : UInt8} {rest : Bytes} (h : rest.head? ≠ some b) (pos : Nat) :
    eat b ⟨pos, rest⟩ = .ok false ⟨pos, rest⟩ := if_neg h

/-- A byte that is not the next one in the line is not the next one at all. -/
theorem head?_inLine_ne {b : UInt8} {rest : Bytes} (h : rest.head? ≠ some b)
    (hb : Ascii.cr ≠ b) (beyond : Bytes) : (rest ++ crlf ++ beyond).head? ≠ some b := by
  cases rest with
  | nil => exact fun hcr => hb (Option.some.inj hcr)
  | cons c rest => exact h

/-- What a scan gives is what the scan behind it is run with. -/
theorem bind_of_ok {α β : Type} {s : Scan α} {f : α → Scan β} {c d : Cursor} {a : α}
    (h : s c = .ok a d) : (s >>= f) c = f a d := by
  rw [bind_apply, h]

theorem take?_eq (size pos : Nat) (beyond : Bytes) :
    take? size ⟨pos, beyond⟩ =
      if size ≤ beyond.length then .ok (some (beyond.take size)) ⟨pos + size, beyond.drop size⟩
      else .ok none ⟨pos, beyond⟩ := by
  unfold take? Cursor.skip
  by_cases h : size ≤ beyond.length
  · simp [h]
  · have hlength : (beyond.take size).length ≠ size := by
      rw [List.length_take]
      omega
    rw [if_neg h, if_neg hlength]

theorem literal_inLine (hcontent : ¬ crlf <:+: content) :
    TokenInLine pos (Ascii.openBrace :: content) beyond
      (literal ⟨pos + 1, content ++ crlf ++ beyond⟩) := by
  rw [literal, bind_apply, takeWhile_inLine (by decide)]
  have hdigits := List.takeWhile_append_dropWhile (p := Ascii.isDigit) (l := content)
  generalize content.takeWhile Ascii.isDigit = digits at hdigits ⊢
  generalize content.dropWhile Ascii.isDigit = left at hdigits ⊢
  subst hdigits
  dsimp only
  cases hsize : Decimal.decodeBelow? sizeBound digits with
  | none => exact .fails (not_isIncomplete_malformed (by simp))
  | some size =>
    dsimp only
    -- A plus sign may stand behind the size.
    obtain ⟨mark, tail, rfl, hmark, found, hplus⟩ : ∃ mark tail, left = mark ++ tail ∧
        (mark = [] ∨ mark = [Ascii.plus]) ∧ ∃ found, ∀ p,
          eat Ascii.plus ⟨p, left ++ crlf ++ beyond⟩ =
            .ok found ⟨p + mark.length, tail ++ crlf ++ beyond⟩ := by
      by_cases hhead : left.head? = some Ascii.plus
      · obtain ⟨tail, rfl⟩ := List.head?_eq_some_iff.mp hhead
        exact ⟨[Ascii.plus], tail, rfl, .inr rfl, true, fun p => eat_head _ p _⟩
      · exact ⟨[], left, rfl, .inl rfl, false, eat_of_ne (head?_inLine_ne hhead (by decide) _)⟩
    rw [bind_apply, hplus]
    dsimp only
    rw [bind_apply]
    by_cases hbrace : tail.head? = some Ascii.closeBrace
    · obtain ⟨after, rfl⟩ := List.head?_eq_some_iff.mp hbrace
      rw [List.cons_append, List.cons_append, eat_head]
      simp only [Bool.not_true, Bool.false_eq_true, if_false]
      cases after with
      | nil =>
        -- The content is over, and it was a header.
        have hheader := Framing.headerSize?_header hmark hsize
        have hterminator : [] ++ crlf ++ beyond = Ascii.cr :: Ascii.lf :: beyond := rfl
        rw [hterminator, bind_of_ok (eat_head _ _ _)]
        simp only [Bool.not_true, Bool.false_eq_true, if_false]
        rw [bind_of_ok (eat_head _ _ _)]
        simp only [Bool.not_true, Bool.false_eq_true, if_false]
        rw [bind_apply, take?_eq]
        by_cases hlong : size ≤ beyond.length
        · rw [if_pos hlong]
          have hdata : (beyond.take size).length = size := List.length_take_of_le hlong
          have hpos : pos + 1 + digits.length + mark.length + 1 + 1 + 1 + size =
              pos + (Ascii.openBrace :: (digits ++ (mark ++ [Ascii.closeBrace])) ++ crlf
                ++ beyond.take size).length := by
            simp only [crlf, List.length_append, List.length_cons, List.length_nil, hdata]
            omega
          rw [hpos]
          exact .literal (hdata.symm ▸ hheader) (List.take_append_drop size beyond).symm
        · rw [if_neg hlong]
          exact .incomplete hheader (Nat.not_le.mp hlong)
      | cons b after =>
        by_cases hcr : b = Ascii.cr
        · -- The other half of a terminator does not follow, because the line goes on.
          have hlf : after.head? ≠ some Ascii.lf := by
            rintro hhead
            obtain ⟨tail, rfl⟩ := List.head?_eq_some_iff.mp hhead
            refine hcontent ⟨digits ++ mark ++ [Ascii.closeBrace], tail, ?_⟩
            simp [crlf, hcr]
          rw [hcr, List.cons_append, List.cons_append, bind_of_ok (eat_head _ _ _)]
          simp only [Bool.not_true, Bool.false_eq_true, if_false]
          rw [bind_of_ok (eat_of_ne (head?_inLine_ne hlf (by decide) _) _)]
          exact .fails (not_isIncomplete_malformed (by simp))
        · rw [bind_of_ok (eat_of_ne (by simpa using hcr) _)]
          exact .fails (not_isIncomplete_malformed (by simp))
    · rw [eat_of_ne (head?_inLine_ne hbrace (by decide) _)]
      exact .fails (not_isIncomplete_malformed (by simp))

/-! ### Tokens -/

theorem ne_literal_of_punctuation? {b : UInt8} {t : Token} (h : punctuation? b = some t)
    (data : Bytes) : t ≠ .literal data := by
  grind [punctuation?]

/-- Reading a token in the content of a line. -/
theorem token_inLine (hcontent : ¬ crlf <:+: content) (pos : Nat) (beyond : Bytes) :
    TokenInLine pos content beyond (token ⟨pos, content ++ crlf ++ beyond⟩) := by
  cases content with
  | nil => exact .lineEnd
  | cons b content =>
    have hrest : ¬ crlf <:+: content :=
      fun h => hcontent (h.trans (List.suffix_cons b content).isInfix)
    have hcrlf : ¬ (b = Ascii.cr ∧ (content ++ crlf ++ beyond).head? = some Ascii.lf) := by
      rintro ⟨rfl, hlf⟩
      cases content with
      | nil => exact absurd (Option.some.inj hlf) (by decide)
      | cons c content =>
        obtain rfl : c = Ascii.lf := Option.some.inj hlf
        exact hcontent ⟨[], content, rfl⟩
    have hone : Cursor.InLine pos (b :: content) beyond ⟨pos + 1, content ++ crlf ++ beyond⟩ :=
      ⟨[b], content, rfl, rfl⟩
    have hskip : (⟨pos, b :: (content ++ crlf ++ beyond)⟩ : Cursor).skip 1
        = ⟨pos + 1, content ++ crlf ++ beyond⟩ := rfl
    have hbytes : b :: content ++ crlf ++ beyond = b :: (content ++ crlf ++ beyond) := rfl
    unfold token
    rw [hbytes]
    dsimp only
    rw [hskip]
    cases hpunctuation : punctuation? b with
    | some t => exact .inside hone (ne_literal_of_punctuation? hpunctuation)
    | none =>
      dsimp only
      rw [if_neg hcrlf]
      split
      next => exact quotedString_inLine b
      next =>
        split
        next hbrace =>
          subst hbrace
          exact literal_inLine hrest
        next =>
          split
          next => exact word_inLine
          next => exact .fails (not_isIncomplete_malformed (by simp))

end Scan

end ImapSearch
