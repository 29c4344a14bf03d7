import ImapSearch.Proofs.SequenceSet.Reachable

/-!
# ImapSearch.Proofs.SequenceSet.Normal

**Sets in normal form.** The spans of a set stand in ascending order, and between
two of them a number is missing (`Separated`); its open ranges are different from
each other. Every set that the library can build is in this form
(`SequenceSet.Reachable.isNormal`).

The form leaves no choice: separated spans that hold the same numbers are the
same spans (`Separated.eq`). So what a set of numbers looks like does not depend
on the order in which its numbers came, or on how often they came
(`SequenceSet.ofNums_congr`).
-/

namespace ImapSearch

/-! ### Spans that do not touch -/

theorem Span.contains_iff {s : Span} {n : Nat} : s.contains n ↔ s.first ≤ n ∧ n ≤ s.last := by
  simp [contains]

/-- Spans in ascending order, each of which ends at least two numbers before the next one begins. -/
structure Separated (spans : List Span) : Prop where
  /-- No span is empty. -/
  first_le_last : ∀ s ∈ spans, s.first ≤ s.last
  /-- Between two spans a number is missing. -/
  apart : spans.Pairwise fun s t => s.last + 1 < t.first

theorem separated_nil : Separated [] := ⟨by simp, List.Pairwise.nil⟩

theorem separated_cons {s : Span} {spans : List Span} :
    Separated (s :: spans) ↔
      s.first ≤ s.last ∧ (∀ t ∈ spans, s.last + 1 < t.first) ∧ Separated spans := by
  constructor
  · rintro ⟨hle, hapart⟩
    rw [List.forall_mem_cons] at hle
    rw [List.pairwise_cons] at hapart
    exact ⟨hle.1, hapart.1, hle.2, hapart.2⟩
  · rintro ⟨hs, hfirst, hle, hapart⟩
    exact ⟨List.forall_mem_cons.mpr ⟨hs, hle⟩, List.pairwise_cons.mpr ⟨hfirst, hapart⟩⟩

/-- What begins before a span that is added and before the others begins before all of them. -/
theorem lt_first_of_mem_insertSpan {k : Nat} {s : Span} {spans : List Span} (hs : k < s.first)
    (hspans : ∀ t ∈ spans, k < t.first) : ∀ t ∈ insertSpan s spans, k < t.first := by
  induction spans generalizing s with
  | nil => simpa [insertSpan] using hs
  | cons r rest ih =>
    rw [List.forall_mem_cons] at hspans
    obtain ⟨hr, hrest⟩ := hspans
    rw [insertSpan]
    split
    · exact List.forall_mem_cons.mpr ⟨hr, ih hs hrest⟩
    · split
      · exact List.forall_mem_cons.mpr ⟨hs, List.forall_mem_cons.mpr ⟨hr, hrest⟩⟩
      · exact ih (Nat.lt_min.mpr ⟨hs, hr⟩) hrest

theorem Separated.insertSpan {s : Span} {spans : List Span} (hs : s.first ≤ s.last)
    (h : Separated spans) : Separated (insertSpan s spans) := by
  -- The span that is added grows by those that it swallows.
  induction spans generalizing s with
  | nil => exact separated_cons.mpr ⟨hs, by simp, separated_nil⟩
  | cons r rest ih =>
    obtain ⟨hr, hafter, hrest⟩ := separated_cons.mp h
    rw [ImapSearch.insertSpan]
    split
    next hbefore =>
      exact separated_cons.mpr ⟨hr, lt_first_of_mem_insertSpan hbefore hafter, ih hs hrest⟩
    next =>
      split
      next hbehind =>
        refine separated_cons.mpr ⟨hs, ?_, h⟩
        rw [List.forall_mem_cons]
        refine ⟨hbehind, fun t ht => ?_⟩
        have := hafter t ht
        omega
      next => exact ih (by dsimp only; omega) hrest

/-- Adding a span adds its numbers and no others. -/
theorem exists_mem_insertSpan {s : Span} {spans : List Span} (hs : s.first ≤ s.last)
    (hspans : ∀ t ∈ spans, t.first ≤ t.last) (n : Nat) :
    (∃ t ∈ insertSpan s spans, t.contains n) ↔ s.contains n ∨ ∃ t ∈ spans, t.contains n := by
  induction spans generalizing s with
  | nil => simp [insertSpan]
  | cons r rest ih =>
    rw [List.forall_mem_cons] at hspans
    obtain ⟨hr, hrest⟩ := hspans
    rw [insertSpan]
    split
    · simp only [List.mem_cons, exists_eq_or_imp, ih hs hrest]
      exact or_left_comm
    · split
      · simp only [List.mem_cons, exists_eq_or_imp]
      · have hmerged : (⟨min s.first r.first, max s.last r.last⟩ : Span).contains n ↔
            s.contains n ∨ r.contains n := by
          simp only [Span.contains_iff]
          omega
        rw [ih (by dsimp only; omega) hrest, hmerged, or_assoc]
        simp only [List.mem_cons, exists_eq_or_imp]

/-- The first of the numbers that separated spans hold is the first number of the first span. -/
theorem Separated.first_le {s : Span} {spans : List Span} (h : Separated (s :: spans)) {n : Nat}
    (hn : ∃ t ∈ s :: spans, t.contains n) : s.first ≤ n := by
  obtain ⟨hs, hafter, -⟩ := separated_cons.mp h
  obtain ⟨t, ht, hn⟩ := hn
  rw [Span.contains_iff] at hn
  rcases List.mem_cons.mp ht with rfl | ht
  · exact hn.1
  · have := hafter t ht
    omega

/-- Behind the first of separated spans a number is missing. -/
theorem Separated.not_contains_succ {s : Span} {spans : List Span} (h : Separated (s :: spans)) :
    ¬ ∃ t ∈ s :: spans, t.contains (s.last + 1) := by
  obtain ⟨-, hafter, -⟩ := separated_cons.mp h
  rintro ⟨t, ht, hn⟩
  rw [Span.contains_iff] at hn
  rcases List.mem_cons.mp ht with rfl | ht
  · omega
  · have := hafter t ht
    omega

theorem Separated.exists_mem_tail {s : Span} {spans : List Span} (h : Separated (s :: spans))
    (n : Nat) : (∃ t ∈ spans, t.contains n) ↔
      (∃ t ∈ s :: spans, t.contains n) ∧ s.last < n := by
  obtain ⟨-, hafter, -⟩ := separated_cons.mp h
  constructor
  · rintro ⟨t, ht, hn⟩
    refine ⟨⟨t, List.mem_cons_of_mem _ ht, hn⟩, ?_⟩
    have := hafter t ht
    rw [Span.contains_iff] at hn
    omega
  · rintro ⟨⟨t, ht, hn⟩, hlast⟩
    rcases List.mem_cons.mp ht with rfl | ht
    · rw [Span.contains_iff] at hn
      omega
    · exact ⟨t, ht, hn⟩

/-- The first of separated spans reaches no further than the first of spans with the same
numbers. -/
theorem Separated.last_le {s t : Span} {spans others : List Span} (ht : Separated (t :: others))
    (hfirst : s.first = t.first)
    (h : ∀ n, (∃ u ∈ s :: spans, u.contains n) → ∃ u ∈ t :: others, u.contains n) :
    s.last ≤ t.last := by
  by_contra hlt
  refine ht.not_contains_succ (h _ ⟨s, List.mem_cons_self, ?_⟩)
  have hle := (separated_cons.mp ht).1
  rw [Span.contains_iff]
  omega

/-- Separated spans are determined by the numbers that they hold. -/
theorem Separated.eq {spans others : List Span} (hspans : Separated spans)
    (hothers : Separated others)
    (h : ∀ n, (∃ s ∈ spans, s.contains n) ↔ ∃ s ∈ others, s.contains n) : spans = others := by
  induction spans generalizing others with
  | nil =>
    cases others with
    | nil => rfl
    | cons t others =>
      have ht := (separated_cons.mp hothers).1
      have hn := (h t.first).mpr ⟨t, List.mem_cons_self, Span.contains_iff.mpr ⟨Nat.le_refl _, ht⟩⟩
      simp at hn
  | cons s spans ih =>
    have hs := (separated_cons.mp hspans).1
    have hsfirst : s.contains s.first := Span.contains_iff.mpr ⟨Nat.le_refl _, hs⟩
    cases others with
    | nil =>
      have hn := (h s.first).mp ⟨s, List.mem_cons_self, hsfirst⟩
      simp at hn
    | cons t others =>
      have ht := (separated_cons.mp hothers).1
      have htfirst : t.contains t.first := Span.contains_iff.mpr ⟨Nat.le_refl _, ht⟩
      have hfirst : s.first = t.first :=
        Nat.le_antisymm (hspans.first_le ((h _).mpr ⟨t, List.mem_cons_self, htfirst⟩))
          (hothers.first_le ((h _).mp ⟨s, List.mem_cons_self, hsfirst⟩))
      have hlast : s.last = t.last :=
        Nat.le_antisymm (hothers.last_le hfirst fun n => (h n).mp)
          (hspans.last_le hfirst.symm fun n => (h n).mpr)
      obtain rfl : s = t := by
        cases s
        cases t
        simp_all
      have htails := ih (separated_cons.mp hspans).2.2 (separated_cons.mp hothers).2.2 fun n => by
        rw [hspans.exists_mem_tail, hothers.exists_mem_tail, h]
      rw [htails]

namespace SequenceSet

/-! ### Sets in normal form -/

/-- A set whose spans are separated and whose open ranges are different from each other. -/
structure IsNormal (set : SequenceSet) : Prop where
  separated : Separated set.spans
  nodup : set.dynamic.Nodup

theorem isNormal_empty : IsNormal empty := ⟨separated_nil, List.nodup_nil⟩

theorem IsNormal.insert {set : SequenceSet} {r : SeqRange} (h : set.IsNormal) (hr : r.Valid) :
    (set.insert r).IsNormal := by
  cases r with
  | span s => exact ⟨h.separated.insertSpan hr.first_le_last, h.nodup⟩
  | openEnded o =>
    unfold SequenceSet.insert
    dsimp only
    split
    next => exact h
    next hnew => exact ⟨h.separated, List.nodup_append.mpr ⟨h.nodup, by simp, by
      rintro a ha b hb rfl
      exact hnew (List.mem_singleton.mp hb ▸ ha)⟩⟩

/-- Every set that can be built is in normal form. -/
theorem Reachable.isNormal {set : SequenceSet} (h : Reachable set) : set.IsNormal :=
  (h.induction isNormal_empty fun _ _ hset hr => hset.insert hr).1

/-! ### The numbers of a set -/

theorem contains_iff {set : SequenceSet} {n : Nat} : set.contains n ↔
    (∃ s ∈ set.spans, s.contains n) ∨ ∃ r ∈ set.dynamic, r.contains n := by
  simp only [contains, ranges, List.any_append, List.any_map, Bool.or_eq_true, List.any_eq_true,
    Function.comp_apply, SeqRange.contains]

/-- Adding a range adds its numbers and no others. -/
theorem contains_insert {set : SequenceSet} {r : SeqRange} (h : set.Valid) (hr : r.Valid)
    (n : Nat) : (set.insert r).contains n ↔ set.contains n ∨ r.contains n := by
  cases r with
  | span s =>
    have hspans : ∀ t ∈ set.spans, t.first ≤ t.last := fun t ht => (h.spans t ht).first_le_last
    have hs : s.Valid := hr
    simp only [contains_iff, insert, exists_mem_insertSpan hs.first_le_last hspans,
      SeqRange.contains]
    rw [or_assoc, or_comm]
  | openEnded o =>
    unfold SequenceSet.insert
    dsimp only
    split
    next hold =>
      refine ⟨.inl, ?_⟩
      rintro (hn | hn)
      · exact hn
      · exact contains_iff.mpr (.inr ⟨o, hold, hn⟩)
    next =>
      simp only [contains_iff, List.mem_append, List.mem_singleton, or_and_right, exists_or,
        exists_eq_left, SeqRange.contains, or_assoc]

theorem valid_addNum {set : SequenceSet} (h : set.Valid) (n : Nat) : (set.addNum n).Valid :=
  addNum_induction (motive := Valid) (fun _ _ hset hr => hset.insert hr) h n

/-- Adding a number adds it, if it can number a message. -/
theorem contains_addNum {set : SequenceSet} (h : set.Valid) (m n : Nat) :
    (set.addNum m).contains n ↔ set.contains n ∨ isNumber n ∧ n = m := by
  unfold addNum
  split
  next hm =>
    have hvalid : (SeqRange.span ⟨m, m⟩).Valid :=
      ⟨(isNumber_iff.mp hm).1, Nat.le_refl m, (isNumber_iff.mp hm).2⟩
    rw [contains_insert h hvalid]
    simp only [SeqRange.contains, Span.contains_iff]
    constructor
    · rintro (hn | hn)
      · exact .inl hn
      · obtain rfl : n = m := by omega
        exact .inr ⟨hm, rfl⟩
    · rintro (hn | ⟨-, rfl⟩)
      · exact .inl hn
      · exact .inr ⟨Nat.le_refl n, Nat.le_refl n⟩
  next hm =>
    refine ⟨.inl, ?_⟩
    rintro (hn | ⟨hn, rfl⟩)
    · exact hn
    · exact absurd hn hm

theorem contains_foldl_addNum {set : SequenceSet} (h : set.Valid) (ns : List Nat) (n : Nat) :
    (ns.foldl addNum set).contains n ↔ set.contains n ∨ isNumber n ∧ n ∈ ns := by
  induction ns generalizing set with
  | nil => simp
  | cons m ns ih =>
    rw [List.foldl_cons, ih (valid_addNum h m), contains_addNum h, List.mem_cons]
    tauto

/-- A set of numbers holds those of them that can number a message. -/
theorem contains_ofNums (ns : List Nat) (n : Nat) :
    (ofNums ns).contains n ↔ isNumber n ∧ n ∈ ns := by
  rw [ofNums, contains_foldl_addNum valid_empty]
  simp [contains_iff, empty]

theorem dynamic_addNum (set : SequenceSet) (n : Nat) : (set.addNum n).dynamic = set.dynamic := by
  unfold addNum
  split <;> rfl

theorem dynamic_ofNums (ns : List Nat) : (ofNums ns).dynamic = [] := by
  have hfold : ∀ set : SequenceSet, (ns.foldl addNum set).dynamic = set.dynamic := by
    induction ns with
    | nil => exact fun _ => rfl
    | cons n ns ih =>
      intro set
      rw [List.foldl_cons, ih, dynamic_addNum]
  exact hfold empty

/-- A set in normal form that does not reach to `*` is determined by its numbers. -/
theorem IsNormal.eq_of_contains_iff {set other : SequenceSet} (hset : set.IsNormal)
    (hother : other.IsNormal) (hd : set.dynamic = []) (hd' : other.dynamic = [])
    (h : ∀ n, set.contains n ↔ other.contains n) : set = other := by
  have hspans : set.spans = other.spans := hset.separated.eq hother.separated fun n => by
    simpa [contains_iff, hd, hd'] using h n
  cases set
  cases other
  simp_all

/-- Neither the order of numbers nor their repetition changes the set of them, and what can number
no message does not count. -/
theorem ofNums_congr {ns ms : List Nat} (h : ∀ n, isNumber n → (n ∈ ns ↔ n ∈ ms)) :
    ofNums ns = ofNums ms := by
  refine (Reachable.ofNums ns).isNormal.eq_of_contains_iff (Reachable.ofNums ms).isNormal
    (dynamic_ofNums ns) (dynamic_ofNums ms) fun n => ?_
  rw [contains_ofNums, contains_ofNums]
  exact and_congr_right (h n)

end SequenceSet

end ImapSearch
