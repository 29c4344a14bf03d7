import ImapSearch.Proofs.Decimal
import ImapSearch.SequenceSet.Text

/-!
# ImapSearch.Proofs.SequenceSet.Text

**The bytes of a set.** Whatever the ranges of a set are, its text is made of
digits, `*`, colons and commas (`SequenceSet.mem_encode`). So it holds nothing
that means something else on the wire.

The commas and colons say where its parts end: no range holds a comma, and no bound
a colon. So the text of a set falls apart into the texts of its ranges
(`SequenceSet.splitOn_encode`), and a range is read from the bounds that it is
written with (`SeqRange.decode?_bound`, `SeqRange.decode?_bounds`).
-/

namespace ImapSearch

theorem Bound.mem_encode {b : Bound} {c : UInt8} (h : c ∈ b.encode) :
    Ascii.isDigit c ∨ c = Ascii.star := by
  cases b with
  | number n => exact .inl (Decimal.isDigit_of_mem_encode h)
  | star => exact .inr (List.mem_singleton.mp h)

/-- A range with both ends known is written in digits and colons. -/
theorem SeqRange.mem_encode_span {s : Span} {c : UInt8} (h : c ∈ encode (.span s)) :
    Ascii.isDigit c ∨ c = Ascii.colon := by
  rw [encode] at h
  split at h
  · exact .inl (Decimal.isDigit_of_mem_encode h)
  · rw [List.mem_append, List.mem_cons] at h
    rcases h with h | h | h
    · exact .inl (Decimal.isDigit_of_mem_encode h)
    · exact .inr h
    · exact .inl (Decimal.isDigit_of_mem_encode h)

theorem SeqRange.mem_encode {r : SeqRange} {c : UInt8} (h : c ∈ r.encode) :
    Ascii.isDigit c ∨ c = Ascii.star ∨ c = Ascii.colon := by
  cases r with
  | span s => exact (mem_encode_span h).imp_right .inr
  | openEnded o =>
    cases o with
    | onward first =>
      rcases List.mem_append.mp h with h | h
      · exact .inl (Decimal.isDigit_of_mem_encode h)
      · simp only [List.mem_cons, List.not_mem_nil, or_false] at h
        exact .inr h.symm
    | star => exact .inr (.inl (List.mem_singleton.mp h))

theorem mem_intercalate_singleton {s c : UInt8} {parts : List Bytes}
    (h : c ∈ [s].intercalate parts) : c = s ∨ ∃ part ∈ parts, c ∈ part := by
  induction parts with
  | nil => cases h
  | cons part parts ih =>
    cases parts with
    | nil =>
      rw [List.intercalate_singleton] at h
      exact .inr ⟨part, by simp, h⟩
    | cons next parts =>
      rw [List.intercalate_cons_cons, List.append_assoc, List.mem_append] at h
      rcases h with h | h
      · exact .inr ⟨part, by simp, h⟩
      · rcases List.mem_append.mp h with h | h
        · exact .inl (List.mem_singleton.mp h)
        · rcases ih h with h | ⟨q, hq, hc⟩
          · exact .inl h
          · exact .inr ⟨q, by simp [hq], hc⟩

/-- A set is written in digits, `*`, colons and commas. -/
theorem SequenceSet.mem_encode {set : SequenceSet} {c : UInt8} (h : c ∈ set.encode) :
    Ascii.isDigit c ∨ c = Ascii.star ∨ c = Ascii.colon ∨ c = Ascii.comma := by
  rcases mem_intercalate_singleton h with rfl | ⟨part, hpart, hc⟩
  · exact .inr (.inr (.inr rfl))
  · obtain ⟨r, -, rfl⟩ := List.mem_map.mp hpart
    rcases SeqRange.mem_encode hc with hc | hc | hc
    · exact .inl hc
    · exact .inr (.inl hc)
    · exact .inr (.inr (.inl hc))

/-- A set without `*` is written in digits, colons and commas. -/
theorem SequenceSet.mem_encode_of_dynamic_eq_nil {set : SequenceSet} (hd : set.dynamic = [])
    {c : UInt8} (h : c ∈ set.encode) :
    Ascii.isDigit c ∨ c = Ascii.colon ∨ c = Ascii.comma := by
  rcases mem_intercalate_singleton h with hc | ⟨part, hpart, hc⟩
  · exact .inr (.inr hc)
  · have hranges : set.ranges = set.spans.map .span := by simp [ranges, hd]
    rw [hranges, List.map_map] at hpart
    obtain ⟨s, -, rfl⟩ := List.mem_map.mp hpart
    exact (SeqRange.mem_encode_span hc).imp_right .inl

/-- A set is written as its text. -/
theorem SequenceSet.utf8_text (set : SequenceSet) : utf8 set.text = set.encode := by
  refine utf8_asciiText fun c hc => ?_
  rcases mem_encode hc with h | rfl | rfl | rfl
  · exact Decimal.lt_of_isDigit h
  · decide
  · decide
  · decide

/-! ### Parts of a text -/

/-- No digits are an asterisk. -/
theorem Decimal.encode_ne_star (n : Nat) : encode n ≠ [Ascii.star] := by
  intro he
  have hdigit := isDigit_of_mem_encode (n := n) (b := Ascii.star) (by simp [he])
  exact absurd hdigit (by decide)

theorem Bound.colon_notMem_encode (b : Bound) : Ascii.colon ∉ b.encode := by
  intro hb
  rcases mem_encode hb with h | h
  · exact absurd h (by decide)
  · exact absurd h (by decide)

theorem SeqRange.encode_ne_nil (r : SeqRange) : r.encode ≠ [] := by
  unfold encode
  split
  · split
    · exact Decimal.encode_ne_nil _
    · exact List.append_ne_nil_of_left_ne_nil (Decimal.encode_ne_nil _) _
  · exact List.append_ne_nil_of_left_ne_nil (Decimal.encode_ne_nil _) _
  · exact List.cons_ne_nil _ _

theorem SeqRange.comma_notMem_encode (r : SeqRange) : Ascii.comma ∉ r.encode := by
  intro hr
  rcases mem_encode hr with h | h | h
  · exact absurd h (by decide)
  · exact absurd h (by decide)
  · exact absurd h (by decide)

namespace SequenceSet

theorem ranges_ne_nil {set : SequenceSet} (h : set.isEmpty = false) : set.ranges ≠ [] := by
  intro hr
  simp only [ranges, List.append_eq_nil_iff, List.map_eq_nil_iff] at hr
  simp [isEmpty, hr] at h

/-- The ranges of a set that is not empty are the parts between its commas. -/
theorem splitOn_encode {set : SequenceSet} (hne : set.isEmpty = false) :
    set.encode.splitOn Ascii.comma = set.ranges.map SeqRange.encode := by
  refine List.splitOn_intercalate _ ?_ (by simpa using ranges_ne_nil hne)
  intro part hpart
  obtain ⟨r, -, rfl⟩ := List.mem_map.mp hpart
  exact r.comma_notMem_encode

theorem encode_ne_nil {set : SequenceSet} (hne : set.isEmpty = false) : set.encode ≠ [] := by
  intro he
  have hs := splitOn_encode hne
  rw [he, List.splitOn_nil] at hs
  obtain ⟨r, -, hr⟩ := List.mem_map.mp (hs ▸ List.mem_singleton_self ([] : Bytes))
  exact r.encode_ne_nil hr

end SequenceSet

/-! ### Bounds of a range -/

/-- What holds no colon is one bound. -/
theorem SeqRange.decode?_bound {bs : Bytes} (h : Ascii.colon ∉ bs) :
    decode? bs = (Bound.decode? bs).map fun b => ofBounds b b := by
  have hspan : (bs ++ []).span (· ≠ Ascii.colon) = (bs, []) :=
    span_append (by simpa using fun b hb => ne_of_mem_of_not_mem hb h) (by simp)
  rw [List.append_nil] at hspan
  rw [decode?, hspan]

/-- What stands before the first colon and what stands behind it are two bounds. -/
theorem SeqRange.decode?_bounds {first : Bytes} (h : Ascii.colon ∉ first) (last : Bytes) :
    decode? (first ++ Ascii.colon :: last) =
      (Bound.decode? first).bind fun a => (Bound.decode? last).map (ofBounds a) := by
  have hspan : (first ++ Ascii.colon :: last).span (· ≠ Ascii.colon) =
      (first, Ascii.colon :: last) :=
    span_append (by simpa using fun b hb => ne_of_mem_of_not_mem hb h)
      (forall_mem_head?_cons (by simp) last)
  rw [decode?, hspan]
  simp only [Option.map_eq_bind]
  rfl

end ImapSearch
