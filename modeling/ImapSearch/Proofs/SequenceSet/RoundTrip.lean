import ImapSearch.Proofs.SequenceSet.Union

/-!
# ImapSearch.Proofs.SequenceSet.RoundTrip

**A set, its text and its numbers.** Reading the text of a set adds its ranges to the
empty set one by one. In normal form every span ends well before the next one begins,
and no open range comes twice, so each range is put behind those that are there
already, and nothing is merged (`SequenceSet.IsNormal.ofRanges_ranges`). So the text
of a set is read as that set (`SequenceSet.Reachable.parse_text`), and different sets
have different texts.

Without `*` the numbers say the same: sets with the same numbers are one set, whatever
the operations were that built them (`SequenceSet.Reachable.eq_iff_contains`).
-/

namespace ImapSearch

/-! ### Ranges read back -/

theorem Bound.decode?_encode {b : Bound} (h : b.Valid) : decode? b.encode = some b := by
  cases b with
  | star => rfl
  | number n =>
    have hn : isNumber n := h
    have hlt : n < maxNumber + 1 := Nat.lt_succ_of_le (isNumber_iff.mp hn).2
    rw [encode, decode?, if_neg (Decimal.encode_ne_star n), Decimal.decodeBelow?_eq_filter,
      Decimal.decode?_encode]
    simp [Option.filter, hlt, hn]

theorem SeqRange.decode?_encode {r : SeqRange} (h : r.Valid) : decode? r.encode = some r := by
  rcases exists_bounds h with ⟨b, hb, he, rfl⟩ | ⟨a, b, ha, hb, he, rfl⟩
  · rw [he, decode?_bound b.colon_notMem_encode, Bound.decode?_encode hb]
    rfl
  · rw [he, decode?_bounds a.colon_notMem_encode, Bound.decode?_encode ha, Bound.decode?_encode hb]
    rfl

/-! ### Sets built from their own ranges -/

/-- A span behind all others is put there. -/
theorem insertSpan_of_lt {s : Span} {spans : List Span} (h : ∀ t ∈ spans, t.last + 1 < s.first) :
    insertSpan s spans = spans ++ [s] := by
  induction spans with
  | nil => rfl
  | cons t rest ih =>
    obtain ⟨ht, hrest⟩ := List.forall_mem_cons.mp h
    rw [insertSpan, if_pos ht, ih hrest, List.cons_append]

namespace SequenceSet

theorem foldl_insert_spans {spans others : List Span} (h : Separated (spans ++ others))
    (dynamic : List OpenRange) :
    (others.map SeqRange.span).foldl insert ⟨spans, dynamic⟩ = ⟨spans ++ others, dynamic⟩ := by
  induction others generalizing spans with
  | nil => rw [List.map_nil, List.foldl_nil, List.append_nil]
  | cons s others ih =>
    have hbefore : ∀ t ∈ spans, t.last + 1 < s.first := by
      intro t ht
      exact (List.pairwise_append.mp h.apart).2.2 t ht s List.mem_cons_self
    have hnext : Separated ((spans ++ [s]) ++ others) := by
      rw [List.append_assoc]
      exact h
    rw [List.map_cons, List.foldl_cons, insert, insertSpan_of_lt hbefore, ih hnext,
      List.append_assoc, List.singleton_append]

theorem foldl_insert_openEnded {dynamic others : List OpenRange} (h : (dynamic ++ others).Nodup)
    (spans : List Span) : (others.map SeqRange.openEnded).foldl insert ⟨spans, dynamic⟩ =
      ⟨spans, dynamic ++ others⟩ := by
  induction others generalizing dynamic with
  | nil => rw [List.map_nil, List.foldl_nil, List.append_nil]
  | cons o others ih =>
    have hnew : o ∉ dynamic := by
      intro hold
      exact (List.nodup_append.mp h).2.2 o hold o List.mem_cons_self rfl
    have hnext : ((dynamic ++ [o]) ++ others).Nodup := by
      rw [List.append_assoc]
      exact h
    rw [List.map_cons, List.foldl_cons, insert]
    dsimp only
    rw [if_neg hnew, ih hnext, List.append_assoc, List.singleton_append]

/-- A set in normal form is the set of its ranges. -/
theorem IsNormal.ofRanges_ranges {set : SequenceSet} (h : set.IsNormal) :
    ofRanges set.ranges = set := by
  have hspans : (set.spans.map SeqRange.span).foldl SequenceSet.insert empty = ⟨set.spans, []⟩ :=
    @foldl_insert_spans [] set.spans h.separated []
  rw [ofRanges, ranges, List.foldl_append, hspans]
  exact @foldl_insert_openEnded [] set.dynamic h.nodup set.spans

/-- The bytes of a set that is not empty are read as that set. -/
theorem Reachable.decode?_encode {set : SequenceSet} (h : Reachable set)
    (hne : set.isEmpty = false) : decode? set.encode = some set := by
  have hread : (set.ranges.map SeqRange.encode).mapM SeqRange.decode? = some set.ranges := by
    rw [mapM_eq_some_iff, List.forall₂_map_left_iff, List.forall₂_same]
    exact fun r hr => SeqRange.decode?_encode (h.valid r hr)
  rw [SequenceSet.decode?, splitOn_encode hne, hread, Option.map_some, h.isNormal.ofRanges_ranges]

/-! ### Sets that are not empty -/

theorem insertSpan_ne_nil (s : Span) (spans : List Span) : insertSpan s spans ≠ [] := by
  induction spans generalizing s with
  | nil => exact List.cons_ne_nil _ _
  | cons r rest ih =>
    rw [insertSpan]
    split
    · exact List.cons_ne_nil _ _
    · split
      · exact List.cons_ne_nil _ _
      · exact ih _

theorem isEmpty_insert (set : SequenceSet) (r : SeqRange) : (set.insert r).isEmpty = false := by
  cases r with
  | span s => simp [insert, isEmpty, insertSpan_ne_nil]
  | openEnded o =>
    unfold insert
    dsimp only
    split
    next hold => simp [isEmpty, List.ne_nil_of_mem hold]
    next => simp [isEmpty]

/-- A text that is read is that of a set that is not empty. -/
theorem isEmpty_of_parse {text : String} {set : SequenceSet} (h : parse text = .ok set) :
    set.isEmpty = false := by
  obtain ⟨rs, hrs, -, rfl⟩ := exists_ranges_of_parse h
  rcases List.eq_nil_or_concat rs with rfl | ⟨others, r, rfl⟩
  · have hnil := (mapM_eq_some_iff.mp hrs).length_eq
    exact absurd (List.length_eq_zero_iff.mp hnil) (List.splitOn_ne_nil _ _)
  · rw [ofRanges, List.concat_eq_append, List.foldl_append]
    exact isEmpty_insert _ r

/-! ### Texts -/

/-- The text of a set is read as that set. Only the text of the empty set is none. -/
theorem Reachable.parse_text {set : SequenceSet} (h : Reachable set) :
    SequenceSet.parse set.text =
      if set.isEmpty then .error (.invalidSequenceSet "") else .ok set := by
  by_cases hempty : set.isEmpty
  · rw [if_pos hempty, eq_empty_of_isEmpty hempty]
    decide +kernel
  · rw [if_neg hempty, SequenceSet.parse, utf8_text,
      h.decode?_encode (Bool.eq_false_iff.mpr hempty)]

/-- The text of a set that can be built and is not empty is read as that set, with the same ranges
in the same order, those that reach to `*` among them. So a text that is read, written again and
read again gives the same set. -/
theorem Reachable.text_roundTrip {set : SequenceSet} (h : Reachable set) :
    (set.isEmpty = false → SequenceSet.parse set.text = .ok set) ∧
    ∀ text parsed, SequenceSet.parse text = .ok parsed →
      SequenceSet.parse parsed.text = .ok parsed := by
  have hread : ∀ s : SequenceSet, s.Reachable → s.isEmpty = false →
      SequenceSet.parse s.text = .ok s := by
    intro s hs hne
    rw [hs.parse_text, hne]
    exact if_neg Bool.false_ne_true
  refine ⟨hread set h, fun text parsed hparse => ?_⟩
  exact hread parsed (.parse hparse) (isEmpty_of_parse hparse)

/-- A set with `*` in several places, a range in the wrong order, and the largest number. -/
theorem text_roundTrip_stars :
    parse "*:2,4,*,4294967295" =
      .ok ⟨[⟨4, 4⟩, ⟨4294967295, 4294967295⟩], [.onward 2, .star]⟩ ∧
    parse "4,4294967295,2:*,*" =
      .ok ⟨[⟨4, 4⟩, ⟨4294967295, 4294967295⟩], [.onward 2, .star]⟩ := by
  have hparse : parse "*:2,4,*,4294967295" =
      .ok ⟨[⟨4, 4⟩, ⟨4294967295, 4294967295⟩], [.onward 2, .star]⟩ := by decide +kernel
  exact ⟨hparse, (Reachable.text_roundTrip (.parse hparse)).1 rfl⟩

/-! ### Numbers -/

theorem dynamic_eq_nil {set : SequenceSet} (h : set.isDynamic = false) : set.dynamic = [] := by
  simpa [isDynamic] using h

/-- Sets that agree on the numbers of 32 bits agree on all numbers. -/
theorem contains_eq_of_uint32 {set other : SequenceSet} (h : set.Valid) (ho : other.Valid)
    (heq : ∀ n : UInt32, set.contains n.toNat = other.contains n.toNat) (n : Nat) :
    set.contains n = other.contains n := by
  by_cases hn : isNumber n
  · have hlt : n < UInt32.size := Nat.lt_succ_of_le (isNumber_iff.mp hn).2
    have hsame := heq (UInt32.ofNat n)
    rwa [UInt32.toNat_ofNat_of_lt' hlt] at hsame
  · have hnone : ∀ s : SequenceSet, s.Valid → s.contains n = false := by
      intro s hs
      rw [Bool.eq_false_iff]
      exact fun hcontains => hn (isNumber_of_contains hs hcontains)
    rw [hnone set h, hnone other ho]

theorem Reachable.eq_of_text_eq {set other : SequenceSet} (h : Reachable set)
    (ho : Reachable other) (htext : set.text = other.text) : set = other := by
  have hparse := h.parse_text
  rw [htext, ho.parse_text] at hparse
  by_cases hempty : set.isEmpty
  · by_cases hempty' : other.isEmpty
    · rw [eq_empty_of_isEmpty hempty, eq_empty_of_isEmpty hempty']
    · rw [if_pos hempty, if_neg hempty'] at hparse
      cases hparse
  · by_cases hempty' : other.isEmpty
    · rw [if_neg hempty, if_pos hempty'] at hparse
      cases hparse
    · rw [if_neg hempty, if_neg hempty'] at hparse
      exact (Except.ok.inj hparse).symm

/-- Sets without `*` that can be built, by whatever operations, are equal if they hold the same
numbers of 32 bits, and only then. They are also equal if they have the same ranges, or the same
text, and only then. -/
theorem Reachable.eq_iff_contains {set other : SequenceSet} (h : Reachable set)
    (ho : Reachable other) (hd : set.isDynamic = false) (hd' : other.isDynamic = false) :
    (set = other ↔ ∀ n : UInt32, set.contains n.toNat = other.contains n.toNat) ∧
    (set = other ↔ set.ranges = other.ranges) ∧
    (set = other ↔ set.text = other.text) := by
  have hcontains : (∀ n : UInt32, set.contains n.toNat = other.contains n.toNat) →
      set = other := by
    intro heq
    refine h.isNormal.eq_of_contains_iff ho.isNormal (dynamic_eq_nil hd) (dynamic_eq_nil hd') ?_
    intro n
    rw [contains_eq_of_uint32 h.valid ho.valid heq n]
  refine ⟨⟨?_, hcontains⟩, ⟨congrArg ranges, ?_⟩, congrArg text, h.eq_of_text_eq ho⟩
  · intro heq n
    rw [heq]
  · intro hranges
    refine hcontains fun n => ?_
    rw [contains, hranges, contains]

/-- Two ways to the same set. -/
theorem eq_iff_contains_twoWays :
    ((ofNums [3, 1, 2]).addRange 9 7).isDynamic = false ∧
    (((empty.addNum 8).addRange 1 3).extend (ofNums [9, 7, 7])).isDynamic = false ∧
    (ofNums [3, 1, 2]).addRange 9 7 = ((empty.addNum 8).addRange 1 3).extend (ofNums [9, 7, 7]) ∧
    ∀ n : UInt32, ((ofNums [3, 1, 2]).addRange 9 7).contains n.toNat =
      (((empty.addNum 8).addRange 1 3).extend (ofNums [9, 7, 7])).contains n.toNat := by
  have heq := Reachable.eq_iff_contains ((Reachable.ofNums [3, 1, 2]).addRange 9 7)
    (((Reachable.empty.addNum 8).addRange 1 3).extend (.ofNums [9, 7, 7])) (by decide) (by decide)
  have hsame := heq.2.1.mpr (by decide)
  exact ⟨by decide, by decide, hsame, heq.1.mp hsame⟩

end SequenceSet

end ImapSearch
