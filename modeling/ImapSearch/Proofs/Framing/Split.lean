import ImapSearch.Framing
import ImapSearch.Proofs.Decimal
import Mathlib.Data.List.Infix

/-!
# ImapSearch.Proofs.Framing.Split

**A stream taken apart as a whole.** `split` says what the responses of a stream
are if all of its bytes are at hand: no buffer, no chunks and no limit on lines.
It is what reading from a connection is measured by.

A line announces a literal if its content ends in a header, and here the header
is looked for among the ends of the content (`announced?`). The reader takes the
line apart from behind; both find the same size (`announcedSize?_append_crlf`).
-/

namespace ImapSearch.Framing

/-! ### Literal headers -/

/-- The size that the bytes announce if they are a literal header and nothing else. -/
def headerSize? : Bytes → Option Nat
  | [] => none
  | b :: bs =>
    let (digits, rest) := bs.span Ascii.isDigit
    if b = Ascii.openBrace ∧
        (rest = [Ascii.closeBrace] ∨ rest = [Ascii.plus, Ascii.closeBrace]) then
      Decimal.decodeBelow? sizeBound digits
    else none

/-- The size that the content of a line announces, if it ends in a literal header. -/
def announced? (content : Bytes) : Option Nat := content.tails.findSome? headerSize?

/-- The content ends in a literal header for `n` bytes. -/
def Announces (content : Bytes) (n : Nat) : Prop :=
  ∃ before digits mark,
    content = before ++ Ascii.openBrace :: (digits ++ (mark ++ [Ascii.closeBrace])) ∧
    (mark = [] ∨ mark = [Ascii.plus]) ∧ Decimal.decodeBelow? sizeBound digits = some n

theorem headerSize?_header {digits mark : Bytes} {n : Nat} (hmark : mark = [] ∨ mark = [Ascii.plus])
    (hn : Decimal.decodeBelow? sizeBound digits = some n) :
    headerSize? (Ascii.openBrace :: (digits ++ (mark ++ [Ascii.closeBrace]))) = some n := by
  have hdigits := (Decimal.isDigit_of_decodeBelow? hn).2
  have hstop : ∀ b ∈ (mark ++ [Ascii.closeBrace]).head?, ¬ Ascii.isDigit b := by
    rcases hmark with rfl | rfl
    · exact forall_mem_head?_cons (by decide) _
    · exact forall_mem_head?_cons (by decide) _
  have hrest : mark ++ [Ascii.closeBrace] = [Ascii.closeBrace] ∨
      mark ++ [Ascii.closeBrace] = [Ascii.plus, Ascii.closeBrace] := by
    rcases hmark with rfl | rfl
    · exact .inl rfl
    · exact .inr rfl
  rw [headerSize?, span_append hdigits hstop]
  exact (if_pos ⟨rfl, hrest⟩).trans hn

theorem eq_of_headerSize? {bs : Bytes} {n : Nat} (h : headerSize? bs = some n) :
    ∃ digits mark, bs = Ascii.openBrace :: (digits ++ (mark ++ [Ascii.closeBrace])) ∧
      (mark = [] ∨ mark = [Ascii.plus]) ∧ Decimal.decodeBelow? sizeBound digits = some n := by
  cases bs with
  | nil => cases h
  | cons b bs =>
    rw [headerSize?, List.span_eq_takeWhile_dropWhile] at h
    obtain ⟨⟨rfl, hrest⟩, hn⟩ := Option.ite_none_right_eq_some.mp h
    have hbs := List.takeWhile_append_dropWhile (p := Ascii.isDigit) (l := bs)
    rcases hrest with hrest | hrest
    · rw [hrest] at hbs
      exact ⟨_, [], congrArg _ hbs.symm, .inl rfl, hn⟩
    · rw [hrest] at hbs
      exact ⟨_, [Ascii.plus], congrArg _ hbs.symm, .inr rfl, hn⟩

/-- The reader looks at the bytes in front of the brace that ends the line, from behind. -/
theorem announcedSize?_closeBrace (header : Bytes) :
    announcedSize? (header.reverse ++ [Ascii.closeBrace] ++ crlf) =
      match (if header.head? = some Ascii.plus then header.tail else header).span
        (· ≠ Ascii.openBrace) with
      | (_, []) => none
      | (size, _ :: _) => Decimal.decodeBelow? sizeBound size.reverse := by
  have hreverse : (header.reverse ++ [Ascii.closeBrace] ++ crlf).reverse
      = Ascii.lf :: Ascii.cr :: Ascii.closeBrace :: header := by
    simp [crlf]
  rw [announcedSize?, hreverse]
  exact if_pos ⟨rfl, rfl, rfl⟩

/-- A header at the end of a line is found, and its digits are read. -/
theorem announcedSize?_header {digits mark : Bytes} (hne : digits ≠ [])
    (hdigits : ∀ d ∈ digits, Ascii.isDigit d) (hmark : mark = [] ∨ mark = [Ascii.plus])
    (before : Bytes) :
    announcedSize?
        (before ++ Ascii.openBrace :: (digits ++ (mark ++ [Ascii.closeBrace])) ++ crlf) =
      Decimal.decodeBelow? sizeBound digits := by
  have hspan : (digits.reverse ++ Ascii.openBrace :: before.reverse).span (· ≠ Ascii.openBrace)
      = (digits.reverse, Ascii.openBrace :: before.reverse) := by
    refine span_append ?_ (by simp)
    intro b hb
    rw [decide_eq_true_eq]
    exact Decimal.ne_of_isDigit (hdigits b (List.mem_reverse.mp hb)) (by decide)
  have hhead : (digits.reverse ++ Ascii.openBrace :: before.reverse).head? ≠ some Ascii.plus := by
    cases hr : digits.reverse with
    | nil => exact absurd (List.reverse_eq_nil_iff.mp hr) hne
    | cons d rest =>
      have hd : d ∈ digits := List.mem_reverse.mp (by simp [hr])
      intro hplus
      exact Decimal.ne_of_isDigit (hdigits d hd) (by decide) (Option.some.inj hplus)
  have hcontent : before ++ Ascii.openBrace :: (digits ++ (mark ++ [Ascii.closeBrace])) =
      (mark ++ (digits.reverse ++ Ascii.openBrace :: before.reverse)).reverse
        ++ [Ascii.closeBrace] := by
    rcases hmark with rfl | rfl <;> simp
  have hmarked : (if (mark ++ (digits.reverse ++ Ascii.openBrace :: before.reverse)).head?
        = some Ascii.plus then (mark ++ (digits.reverse ++ Ascii.openBrace :: before.reverse)).tail
      else mark ++ (digits.reverse ++ Ascii.openBrace :: before.reverse))
      = digits.reverse ++ Ascii.openBrace :: before.reverse := by
    rcases hmark with rfl | rfl
    · rw [List.nil_append]
      exact if_neg hhead
    · exact if_pos rfl
  rw [hcontent, announcedSize?_closeBrace, hmarked, hspan]
  show Decimal.decodeBelow? sizeBound digits.reverse.reverse = _
  rw [List.reverse_reverse]

theorem Announces.announcedSize? {content : Bytes} {n : Nat} (h : Announces content n) :
    announcedSize? (content ++ crlf) = some n := by
  obtain ⟨before, digits, mark, rfl, hmark, hn⟩ := h
  obtain ⟨hne, hdigits⟩ := Decimal.isDigit_of_decodeBelow? hn
  rw [announcedSize?_header hne hdigits hmark, hn]

theorem announces_of_announcedSize? {content : Bytes} {n : Nat}
    (h : announcedSize? (content ++ crlf) = some n) : Announces content n := by
  obtain ⟨reversed, rfl⟩ : ∃ reversed, content = List.reverse reversed :=
    ⟨content.reverse, (List.reverse_reverse content).symm⟩
  cases reversed with
  | nil => cases h
  | cons brace header =>
    have hbrace : brace = Ascii.closeBrace := by
      by_contra hne
      simp [announcedSize?, crlf, hne] at h
    subst hbrace
    rw [List.reverse_cons, announcedSize?_closeBrace] at h
    -- The header is a size, perhaps with a plus sign behind it.
    obtain ⟨mark, digits, hheader, hmark, hdigits⟩ : ∃ mark digits, header = mark ++ digits ∧
        (mark = [] ∨ mark = [Ascii.plus]) ∧
        (if header.head? = some Ascii.plus then header.tail else header) = digits := by
      by_cases hplus : header.head? = some Ascii.plus
      · refine ⟨[Ascii.plus], header.tail, ?_, .inr rfl, if_pos hplus⟩
        exact (List.cons_head?_tail hplus).symm
      · exact ⟨[], header, rfl, .inl rfl, if_neg hplus⟩
    rw [hdigits, List.span_eq_takeWhile_dropWhile] at h
    have hsplit := List.takeWhile_append_dropWhile (p := (· ≠ Ascii.openBrace)) (l := digits)
    cases hafter : digits.dropWhile (· ≠ Ascii.openBrace) with
    | nil =>
      rw [hafter] at h
      cases h
    | cons b before =>
      have hb : b = Ascii.openBrace := by
        have hhead := List.head?_dropWhile_not (· ≠ Ascii.openBrace) digits
        rw [hafter] at hhead
        simpa using hhead
      subst hb
      rw [hafter] at h hsplit
      generalize digits.takeWhile (· ≠ Ascii.openBrace) = size at h hsplit
      subst hsplit
      refine ⟨before.reverse, size.reverse, mark, ?_, hmark, h⟩
      rcases hmark with rfl | rfl <;> simp [hheader]

/-- Both ways of looking for a header find the same size. -/
theorem announcedSize?_append_crlf (content : Bytes) :
    announcedSize? (content ++ crlf) = announced? content := by
  -- The reader finds one size at most, so no other end of the content can announce another.
  have sound : ∀ n, announced? content = some n → Announces content n := by
    intro n h
    obtain ⟨suffix, hsuffix, hsize⟩ := List.exists_of_findSome?_eq_some h
    obtain ⟨before, rfl⟩ := (List.mem_tails _ _).mp hsuffix
    obtain ⟨digits, mark, rfl, hmark, hn⟩ := eq_of_headerSize? hsize
    exact ⟨before, digits, mark, rfl, hmark, hn⟩
  cases hread : announcedSize? (content ++ crlf) with
  | none =>
    cases hfound : announced? content with
    | none => rfl
    | some n =>
      rw [(sound n hfound).announcedSize?] at hread
      cases hread
  | some n =>
    obtain ⟨before, digits, mark, hcontent, hmark, hn⟩ := announces_of_announcedSize? hread
    have hsuffix : Ascii.openBrace :: (digits ++ (mark ++ [Ascii.closeBrace])) ∈ content.tails :=
      (List.mem_tails _ _).mpr ⟨before, hcontent.symm⟩
    have hsome : (announced? content).isSome :=
      List.findSome?_isSome_iff.mpr ⟨_, hsuffix, by rw [headerSize?_header hmark hn]; rfl⟩
    obtain ⟨n', hfound⟩ := Option.isSome_iff_exists.mp hsome
    rw [hfound, ← hread]
    exact (sound n' hfound).announcedSize?

/-! ### Streams -/

/-- What a stream comes to. -/
structure Frames where
  /-- The complete responses, in order. -/
  responses : List Bytes
  /-- Why there are no more. -/
  error : Error
  /-- The lines that were taken, without their terminators. -/
  lines : List Bytes
  /-- The bytes of the line in which the stream ends, if that is why. -/
  tail : Bytes
deriving DecidableEq, Repr

/-- Takes a stream apart; `begun` are the bytes of a response that was begun. -/
def split (maxLiteral : Nat) (begun bs : Bytes) : Frames :=
  match _h : splitCrlf bs with
  | none => ⟨[], .connectionClosed, [], bs⟩
  | some (content, after) =>
    match announced? content with
    | none =>
      let others := split maxLiteral [] after
      { others with
        responses := (begun ++ content ++ crlf) :: others.responses
        lines := content :: others.lines }
    | some size =>
      if maxLiteral < size then ⟨[], .literalTooLarge size maxLiteral, [content], []⟩
      else if after.length < size then ⟨[], .streamTruncated, [content], []⟩
      else
        let others := split maxLiteral (begun ++ content ++ crlf ++ after.take size)
          (after.drop size)
        { others with lines := content :: others.lines }
termination_by bs.length
decreasing_by
  all_goals
    have := congrArg List.length (eq_of_splitCrlf _h)
    simp [crlf] at this ⊢
    omega

section Steps

variable {maxLiteral : Nat} {begun bs content after : Bytes}

theorem split_of_none (h : splitCrlf bs = none) :
    split maxLiteral begun bs = ⟨[], .connectionClosed, [], bs⟩ := by
  rw [Framing.split]
  split
  next => rfl
  next hs =>
    rw [h] at hs
    cases hs

/-- What is done with a line. -/
theorem split_of_some (h : splitCrlf bs = some (content, after)) :
    split maxLiteral begun bs =
      match announced? content with
      | none =>
        { split maxLiteral [] after with
          responses := (begun ++ content ++ crlf) :: (split maxLiteral [] after).responses
          lines := content :: (split maxLiteral [] after).lines }
      | some size =>
        if maxLiteral < size then ⟨[], .literalTooLarge size maxLiteral, [content], []⟩
        else if after.length < size then ⟨[], .streamTruncated, [content], []⟩
        else
          { split maxLiteral (begun ++ content ++ crlf ++ after.take size) (after.drop size) with
            lines := content :: (split maxLiteral (begun ++ content ++ crlf ++ after.take size)
              (after.drop size)).lines } := by
  rw [Framing.split]
  split
  next hs =>
    rw [h] at hs
    cases hs
  next hs =>
    rw [h] at hs
    cases hs
    rfl

theorem split_of_line (h : splitCrlf bs = some (content, after))
    (hnone : announced? content = none) :
    split maxLiteral begun bs =
      { split maxLiteral [] after with
        responses := (begun ++ content ++ crlf) :: (split maxLiteral [] after).responses
        lines := content :: (split maxLiteral [] after).lines } := by
  rw [split_of_some h, hnone]

variable {size : Nat} (h : splitCrlf bs = some (content, after))
  (hsize : announced? content = some size)

include h hsize

theorem split_of_large (hlarge : maxLiteral < size) :
    split maxLiteral begun bs = ⟨[], .literalTooLarge size maxLiteral, [content], []⟩ := by
  rw [split_of_some h, hsize]
  exact if_pos hlarge

theorem split_of_truncated (hlimit : ¬ maxLiteral < size) (hshort : after.length < size) :
    split maxLiteral begun bs = ⟨[], .streamTruncated, [content], []⟩ := by
  rw [split_of_some h, hsize]
  exact (if_neg hlimit).trans (if_pos hshort)

theorem split_of_literal (hlimit : ¬ maxLiteral < size) (hlong : ¬ after.length < size) :
    split maxLiteral begun bs =
      { split maxLiteral (begun ++ content ++ crlf ++ after.take size) (after.drop size) with
        lines := content :: (split maxLiteral (begun ++ content ++ crlf ++ after.take size)
          (after.drop size)).lines } := by
  rw [split_of_some h, hsize]
  exact (if_neg hlimit).trans (if_neg hlong)

end Steps

/-- The first line that is taken is the first line. -/
theorem mem_lines_split {maxLiteral : Nat} {begun bs content after : Bytes}
    (h : splitCrlf bs = some (content, after)) :
    content ∈ (split maxLiteral begun bs).lines := by
  cases hsize : announced? content with
  | none => simp [split_of_line h hsize]
  | some size =>
    by_cases hlarge : maxLiteral < size
    · simp [split_of_large h hsize hlarge]
    · by_cases hshort : after.length < size
      · simp [split_of_truncated h hsize hlarge hshort]
      · simp [split_of_literal h hsize hlarge hshort]

end ImapSearch.Framing
