import ImapSearch.Proofs.SequenceSet.Normal
import ImapSearch.Proofs.SequenceSet.Text
import ImapSearch.Proofs.SequenceSet.Union
import Mathlib.Data.List.Dedup
import Mathlib.Data.List.Sort

/-!
# ImapSearch.Proofs.SequenceSet.Nums

**The numbers of a set as a list.** A set that does not reach to `*` can be listed. In
normal form its spans follow one another with a gap, so the list of their numbers
ascends (`Separated.pairwise_flatMap_nums`), it holds exactly the numbers of the set
(`SequenceSet.mem_of_nums?`), and it is empty only if the set is
(`SequenceSet.isEmpty_of_nums?`). An ascending list is determined by its elements, so
there is no choice: for a set made of given numbers it is these numbers in order, each
of them once (`SequenceSet.nums?_ofNums`).

Only `*` makes a set reach to `*`: a text without one is read as a set that can be
listed (`SequenceSet.isDynamic_of_decode?`).
-/

namespace ImapSearch

/-! ### Lists of numbers -/

theorem Span.mem_nums {s : Span} {n : Nat} : n ∈ s.nums ↔ s.contains n := by
  rw [nums, List.mem_range'_1, contains_iff]
  omega

theorem Span.pairwise_nums (s : Span) : s.nums.Pairwise (· < ·) := List.pairwise_lt_range'

/-- The numbers of separated spans ascend from span to span. -/
theorem Separated.pairwise_flatMap_nums {spans : List Span} (h : Separated spans) :
    (spans.flatMap Span.nums).Pairwise (· < ·) := by
  rw [List.pairwise_flatMap]
  refine ⟨fun s _ => s.pairwise_nums, h.apart.imp fun {s t} hlt m hm n hn => ?_⟩
  rw [Span.mem_nums, Span.contains_iff] at hm hn
  omega

namespace SequenceSet

theorem nums?_eq_some {set : SequenceSet} {ns : List Nat} (h : set.nums? = some ns) :
    set.isDynamic = false ∧ ns = set.spans.flatMap Span.nums := by
  unfold nums? at h
  split at h
  next => cases h
  next hstatic =>
    cases h
    exact ⟨Bool.eq_false_iff.mpr hstatic, rfl⟩

/-- A set that does not reach to `*` can be listed. -/
theorem isSome_nums? {set : SequenceSet} (h : set.isDynamic = false) : set.nums?.isSome := by
  simp [nums?, h]

/-- A set without ranges that reach to `*` holds the numbers of its spans. -/
theorem contains_iff_of_not_isDynamic {set : SequenceSet} (h : set.isDynamic = false) {n : Nat} :
    set.contains n ↔ ∃ s ∈ set.spans, s.contains n := by
  have hdynamic : set.dynamic = [] := by simpa [isDynamic] using h
  rw [contains_iff, hdynamic]
  simp

/-- The list holds exactly the numbers of the set. -/
theorem mem_of_nums? {set : SequenceSet} {ns : List Nat} (h : set.nums? = some ns) {n : Nat} :
    n ∈ ns ↔ set.contains n := by
  obtain ⟨hstatic, rfl⟩ := nums?_eq_some h
  rw [contains_iff_of_not_isDynamic hstatic, List.mem_flatMap]
  simp only [Span.mem_nums]

theorem IsNormal.pairwise_of_nums? {set : SequenceSet} (hset : set.IsNormal) {ns : List Nat}
    (h : set.nums? = some ns) : ns.Pairwise (· < ·) := by
  obtain ⟨-, rfl⟩ := nums?_eq_some h
  exact hset.separated.pairwise_flatMap_nums

/-- Only an empty set lists no number. -/
theorem IsNormal.isEmpty_of_nums? {set : SequenceSet} (hset : set.IsNormal)
    (h : set.nums? = some []) : set.isEmpty := by
  obtain ⟨hstatic, hnil⟩ := nums?_eq_some h
  have hspans : set.spans = [] := by
    rw [List.eq_nil_iff_forall_not_mem]
    intro s hs
    have hfirst : s.first ∈ s.nums :=
      Span.mem_nums.mpr (Span.contains_iff.mpr
        ⟨Nat.le_refl _, hset.separated.first_le_last s hs⟩)
    exact absurd (List.mem_flatMap.mpr ⟨s, hs, hfirst⟩) (hnil ▸ List.not_mem_nil)
  simpa [isEmpty, hspans, isDynamic] using hstatic

/-! ### Numbers of 32 bits in order -/

/-- A set reaches to `*` if one of its ranges does. -/
theorem isDynamic_iff {set : SequenceSet} : set.isDynamic ↔ ∃ r ∈ set.ranges, r.isDynamic := by
  constructor
  · intro h
    have hne : set.dynamic ≠ [] := by simpa [isDynamic] using h
    obtain ⟨o, ho⟩ := List.exists_mem_of_ne_nil _ hne
    exact ⟨.openEnded o, List.mem_append_right _ (List.mem_map_of_mem ho), rfl⟩
  · rintro ⟨r, hr, hdynamic⟩
    rcases List.mem_append.mp hr with hr | hr
    · obtain ⟨s, -, rfl⟩ := List.mem_map.mp hr
      cases hdynamic
    · obtain ⟨o, ho, rfl⟩ := List.mem_map.mp hr
      simpa [isDynamic] using List.ne_nil_of_mem ho

theorem nums?_eq_none_iff {set : SequenceSet} : set.nums? = none ↔ set.isDynamic := by
  simp [nums?]

/-- The numbers other than zero in ascending order, each of them once. -/
def distinctNums (ns : List UInt32) : List Nat :=
  ((ns.filter (· ≠ 0)).dedup.mergeSort).map UInt32.toNat

theorem pairwise_distinctNums (ns : List UInt32) : (distinctNums ns).Pairwise (· < ·) := by
  have hle : ((ns.filter (· ≠ 0)).dedup.mergeSort).Pairwise (· ≤ ·) := List.pairwise_mergeSort' _ _
  have hne : ((ns.filter (· ≠ 0)).dedup.mergeSort).Pairwise (· ≠ ·) :=
    (List.mergeSort_perm _ _).nodup_iff.mpr (List.nodup_dedup _)
  rw [distinctNums, List.pairwise_map]
  exact hle.imp₂ (fun a b hab hab' => Nat.lt_of_le_of_ne hab (UInt32.toNat_inj.not.mpr hab')) hne

theorem mem_distinctNums {ns : List UInt32} {n : Nat} :
    n ∈ distinctNums ns ↔ isNumber n ∧ n ∈ ns.map UInt32.toNat := by
  simp only [distinctNums, List.mem_map, List.mem_mergeSort, List.mem_dedup, List.mem_filter,
    decide_eq_true_eq]
  constructor
  · rintro ⟨k, ⟨hk, hne⟩, rfl⟩
    exact ⟨isNumber_toNat.mpr hne, k, hk, rfl⟩
  · rintro ⟨hn, k, hk, rfl⟩
    exact ⟨k, ⟨hk, isNumber_toNat.mp hn⟩, rfl⟩

/-- The set of given numbers lists these in order. -/
theorem nums?_ofNums (ns : List UInt32) :
    (ofNums (ns.map UInt32.toNat)).nums? = some (distinctNums ns) := by
  have hstatic : (ofNums (ns.map UInt32.toNat)).isDynamic = false := by
    simp [isDynamic, dynamic_ofNums]
  obtain ⟨ms, hms⟩ := Option.isSome_iff_exists.mp (isSome_nums? hstatic)
  have hascends : ms.Pairwise (· < ·) := (Reachable.ofNums _).isNormal.pairwise_of_nums? hms
  have hmem : ∀ n, n ∈ ms ↔ n ∈ distinctNums ns := by
    intro n
    rw [mem_of_nums? hms, contains_ofNums, mem_distinctNums]
  rw [hms, hascends.eq_of_mem_iff (pairwise_distinctNums ns) hmem]

/-- A set that can be built has no list of its numbers if and only if one of its ranges reaches to
`*`. Otherwise the list ascends strictly and holds exactly the numbers of 32 bits that are in the
set. For a set made of given numbers it is these without zero, in order and each of them once. -/
theorem Reachable.nums?_enumerates {set : SequenceSet} (h : Reachable set) :
    (set.nums? = none ↔ ∃ r ∈ set.ranges, r.isDynamic) ∧
    (∀ ns, set.nums? = some ns → ns.Pairwise (· < ·) ∧
      ∀ n, n ∈ ns ↔ ∃ k : UInt32, k.toNat = n ∧ set.contains k.toNat) ∧
    ∀ ns : List UInt32,
      (SequenceSet.ofNums (ns.map UInt32.toNat)).nums? = some (distinctNums ns) := by
  refine ⟨nums?_eq_none_iff.trans isDynamic_iff, fun ns hns => ⟨?ascending, fun n => ?exact⟩,
    nums?_ofNums⟩
  case ascending => exact h.isNormal.pairwise_of_nums? hns
  case exact =>
    rw [mem_of_nums? hns]
    constructor
    · intro hn
      have hle : n ≤ maxNumber := (isNumber_iff.mp (isNumber_of_contains h.valid hn)).2
      have hnat : (UInt32.ofNat n).toNat = n := UInt32.toNat_ofNat_of_lt' (Nat.lt_succ_of_le hle)
      exact ⟨UInt32.ofNat n, hnat, hnat.symm ▸ hn⟩
    · rintro ⟨k, rfl, hk⟩
      exact hk

/-- Numbers out of order and twice, a range up to the largest number, and `*`. -/
theorem nums?_enumerates_largest :
    (((ofNums [9, 3, 9, 0]).addRange 4294967295 4294967294).nums? =
        some [3, 9, 4294967294, 4294967295] ∧
      (∀ n, n ∈ [3, 9, 4294967294, 4294967295] ↔ ∃ k : UInt32, k.toNat = n ∧
        ((ofNums [9, 3, 9, 0]).addRange 4294967295 4294967294).contains k.toNat)) ∧
    (all.nums? = none ↔ ∃ r ∈ all.ranges, r.isDynamic) ∧
    distinctNums [7, 0, 2, 7] = [2, 7] := by
  have hset := ((Reachable.ofNums [9, 3, 9, 0]).addRange 4294967295 4294967294).nums?_enumerates
  have hlist : ((ofNums [9, 3, 9, 0]).addRange 4294967295 4294967294).nums? =
      some [3, 9, 4294967294, 4294967295] := by decide
  have htwo : (ofNums ([7, 0, 2, 7].map UInt32.toNat)).nums? = some [2, 7] := by decide
  exact ⟨⟨hlist, (hset.2.1 _ hlist).2⟩, (Reachable.nums?_enumerates .all).1,
    Option.some.inj ((hset.2.2 [7, 0, 2, 7]).symm.trans htwo)⟩

end SequenceSet

/-! ### Texts without a star -/

/-- What belongs to a part belongs to the parts with separators between them. -/
theorem mem_intercalate_of_mem {α : Type} {sep part : List α} {parts : List (List α)} {a : α}
    (hpart : part ∈ parts) (ha : a ∈ part) : a ∈ sep.intercalate parts := by
  induction parts with
  | nil => cases hpart
  | cons first rest ih =>
    cases rest with
    | nil =>
      obtain rfl := List.mem_singleton.mp hpart
      simpa using ha
    | cons second rest =>
      rw [List.intercalate_cons_cons, List.mem_append, List.mem_append]
      rcases List.mem_cons.mp hpart with rfl | hrest
      · exact .inl (.inl ha)
      · exact .inr (ih hrest)

theorem mem_of_mem_splitOn {a b : UInt8} {bs part : Bytes} (hpart : part ∈ bs.splitOn a)
    (hb : b ∈ part) : b ∈ bs := by
  have hmem : b ∈ [a].intercalate (bs.splitOn a) := mem_intercalate_of_mem hpart hb
  rw [List.intercalate_splitOn] at hmem
  exact hmem

theorem Bound.exists_number {bs : Bytes} {b : Bound} (hstar : Ascii.star ∉ bs)
    (h : decode? bs = some b) : ∃ n, b = .number n := by
  have hne : bs ≠ [Ascii.star] := by
    intro hbs
    exact hstar (by simp [hbs])
  rw [decode?, if_neg hne, Option.map_eq_some_iff] at h
  obtain ⟨n, -, rfl⟩ := h
  exact ⟨n, rfl⟩

theorem SeqRange.exists_span {bs : Bytes} {r : SeqRange} (hstar : Ascii.star ∉ bs)
    (h : decode? bs = some r) : ∃ s, r = .span s := by
  by_cases hcolon : Ascii.colon ∈ bs
  · obtain ⟨first, last, rfl, hfirst⟩ := List.eq_append_cons_of_mem hcolon
    simp only [List.mem_append, List.mem_cons, not_or] at hstar
    simp only [decode?_bounds hfirst, Option.bind_eq_some_iff, Option.map_eq_some_iff] at h
    obtain ⟨a, ha, b, hb, rfl⟩ := h
    obtain ⟨m, rfl⟩ := Bound.exists_number hstar.1 ha
    obtain ⟨n, rfl⟩ := Bound.exists_number hstar.2.2 hb
    exact ⟨_, rfl⟩
  · rw [decode?_bound hcolon, Option.map_eq_some_iff] at h
    obtain ⟨b, hb, rfl⟩ := h
    obtain ⟨n, rfl⟩ := Bound.exists_number hstar hb
    exact ⟨_, rfl⟩

namespace SequenceSet

theorem dynamic_foldl_insert {rs : List SeqRange} (h : ∀ r ∈ rs, ∃ s, r = .span s)
    (set : SequenceSet) : (rs.foldl insert set).dynamic = set.dynamic := by
  induction rs generalizing set with
  | nil => rfl
  | cons r rs ih =>
    obtain ⟨⟨s, rfl⟩, hrs⟩ := List.forall_mem_cons.mp h
    rw [List.foldl_cons, ih hrs]
    rfl

/-- A text without `*` names a set that does not reach to it. -/
theorem isDynamic_of_decode? {bs : Bytes} {set : SequenceSet} (hstar : Ascii.star ∉ bs)
    (h : decode? bs = some set) : set.isDynamic = false := by
  obtain ⟨rs, hrs, rfl⟩ := Option.map_eq_some_iff.mp h
  have hspans : ∀ r ∈ rs, ∃ s, r = .span s := by
    intro r hr
    obtain ⟨part, hpart, hread⟩ := (mem_mapM_iff hrs).mp hr
    exact SeqRange.exists_span (fun hs => hstar (mem_of_mem_splitOn hpart hs)) hread
  rw [isDynamic, ofRanges, dynamic_foldl_insert hspans]
  rfl

end SequenceSet

end ImapSearch
