import ImapSearch.SequenceSet.Text
import Mathlib.Data.List.Forall2

/-!
# ImapSearch.Proofs.SequenceSet.Reachable

**The sets that the library can build.** A `SequenceSet` is only ever built by
the operations of the library, from numbers, ranges, texts and other sets
(`SequenceSet.Reachable`). They all come down to adding valid ranges to the
empty set, and `Reachable.induction` says so once for all of them: a property of
the empty set that is kept when a valid range is added holds of every such set.

The first such property is that the ranges of a set are valid
(`Reachable.valid`): a bound is a number that a message can have, and the lower
bound comes first.
-/

namespace ImapSearch

/-! ### Reading a list -/

/-- Reading every element of a list succeeds if each of them can be read. -/
theorem mapM_eq_some_iff {α β : Type} {f : α → Option β} {as : List α} {bs : List β} :
    as.mapM f = some bs ↔ List.Forall₂ (fun a b => f a = some b) as bs := by
  induction as generalizing bs with
  | nil => simp [eq_comm]
  | cons a as ih =>
    simp only [List.mapM_cons, Option.bind_eq_bind, Option.bind_eq_some_iff, Option.pure_def,
      Option.some.injEq, List.forall₂_cons_left_iff, ih]
    constructor
    · intro h
      obtain ⟨b, hb, bs, hbs, rfl⟩ := h
      exact ⟨b, bs, hb, hbs, rfl⟩
    · intro h
      obtain ⟨b, bs, hb, hbs, rfl⟩ := h
      exact ⟨b, hb, bs, hbs, rfl⟩

/-- The results are those of the elements of the list. -/
theorem mem_mapM_iff {α β : Type} {f : α → Option β} {as : List α} {bs : List β}
    (h : as.mapM f = some bs) {b : β} : b ∈ bs ↔ ∃ a ∈ as, f a = some b := by
  rw [mapM_eq_some_iff] at h
  induction h with
  | nil => simp
  | cons hab _ ih => simp [ih, hab, eq_comm]

/-- If a list was read, each of its elements was. -/
theorem exists_eq_some_of_mapM {α β : Type} {f : α → Option β} {as : List α} {bs : List β}
    (h : as.mapM f = some bs) {a : α} (ha : a ∈ as) : ∃ b, f a = some b := by
  rw [mapM_eq_some_iff] at h
  induction h with
  | nil => cases ha
  | cons hab _ ih =>
    rcases List.mem_cons.mp ha with rfl | ha
    · exact ⟨_, hab⟩
    · exact ih ha

/-! ### Valid ranges -/

/-- A run of numbers that messages can have, in ascending order. -/
structure Span.Valid (s : Span) : Prop where
  /-- The lowest number is a message number. -/
  first_pos : 1 ≤ s.first
  /-- The bounds are in order. -/
  first_le_last : s.first ≤ s.last
  /-- The highest number is a message number. -/
  last_le : s.last ≤ maxNumber

/-- A range whose bounds are message numbers or `*`, in ascending order. -/
def SeqRange.Valid : SeqRange → Prop
  | .span s => s.Valid
  | .openEnded (.onward first) => isNumber first
  | .openEnded .star => True

/-- A bound that is a message number or `*`. -/
def Bound.Valid : Bound → Prop
  | .number n => isNumber n
  | .star => True

theorem isNumber_iff {n : Nat} : isNumber n ↔ 1 ≤ n ∧ n ≤ maxNumber := by
  simp [isNumber]

theorem Span.valid_between {a b : Nat} (ha : isNumber a) (hb : isNumber b) :
    (Span.between a b).Valid := by
  rw [isNumber_iff] at ha hb
  refine ⟨?_, ?_, ?_⟩ <;> simp only [between] <;> omega

theorem Bound.valid_of_decode? {bs : Bytes} {b : Bound} (h : decode? bs = some b) : b.Valid := by
  unfold decode? at h
  split at h
  · cases h
    trivial
  · simp only [Option.map_eq_some_iff, Option.filter_eq_some_iff] at h
    obtain ⟨n, ⟨-, hn⟩, rfl⟩ := h
    exact hn

theorem SeqRange.valid_ofBounds {a b : Bound} (ha : a.Valid) (hb : b.Valid) :
    (ofBounds a b).Valid := by
  cases a with
  | number m =>
    cases b with
    | number n => exact Span.valid_between ha hb
    | star => exact ha
  | star =>
    cases b with
    | number n => exact hb
    | star => trivial

theorem SeqRange.valid_of_decode? {bs : Bytes} {r : SeqRange} (h : decode? bs = some r) :
    r.Valid := by
  unfold decode? at h
  split at h
  · obtain ⟨b, hb, rfl⟩ := Option.map_eq_some_iff.mp h
    exact valid_ofBounds (Bound.valid_of_decode? hb) (Bound.valid_of_decode? hb)
  · simp only [Option.bind_eq_bind, Option.bind_eq_some_iff, Option.pure_def,
      Option.some.injEq] at h
    obtain ⟨a, ha, b, hb, rfl⟩ := h
    exact valid_ofBounds (Bound.valid_of_decode? ha) (Bound.valid_of_decode? hb)

/-- A valid range is written as one bound or as two, and is the range between them. -/
theorem SeqRange.exists_bounds {r : SeqRange} (h : r.Valid) :
    (∃ b : Bound, b.Valid ∧ r.encode = b.encode ∧ r = ofBounds b b) ∨
      ∃ a b : Bound, a.Valid ∧ b.Valid ∧ r.encode = a.encode ++ Ascii.colon :: b.encode ∧
        r = ofBounds a b := by
  cases r with
  | span s =>
    obtain ⟨first, last⟩ := s
    have hf : isNumber first :=
      isNumber_iff.mpr ⟨h.first_pos, Nat.le_trans h.first_le_last h.last_le⟩
    have hl : isNumber last :=
      isNumber_iff.mpr ⟨Nat.le_trans h.first_pos h.first_le_last, h.last_le⟩
    by_cases heq : first = last
    · subst heq
      refine .inl ⟨.number first, hf, by simp [encode, Bound.encode], ?_⟩
      simp [ofBounds, Span.between]
    · refine .inr ⟨.number first, .number last, hf, hl, by simp [encode, Bound.encode, heq], ?_⟩
      have hle : first ≤ last := h.first_le_last
      simp [ofBounds, Span.between, hle]
  | openEnded o =>
    cases o with
    | onward first => exact .inr ⟨.number first, .star, h, trivial, rfl, rfl⟩
    | star => exact .inl ⟨.star, trivial, rfl, rfl⟩

/-! ### Valid sets -/

namespace SequenceSet

/-- A set all of whose ranges are valid. -/
def Valid (set : SequenceSet) : Prop := ∀ r ∈ set.ranges, r.Valid

theorem Valid.spans {set : SequenceSet} (h : set.Valid) : ∀ s ∈ set.spans, s.Valid :=
  fun _ hs => h _ (List.mem_append_left _ (List.mem_map_of_mem hs))

theorem valid_insertSpan {s : Span} {spans : List Span} (hs : s.Valid)
    (hspans : ∀ r ∈ spans, r.Valid) : ∀ r ∈ insertSpan s spans, r.Valid := by
  induction spans generalizing s with
  | nil => simpa [insertSpan] using hs
  | cons r rest ih =>
    have hr : r.Valid := hspans r (by simp)
    have hrest : ∀ t ∈ rest, t.Valid := fun t ht => hspans t (by simp [ht])
    rw [insertSpan]
    split
    · simpa [hr] using ih hs hrest
    · split
      · simpa [hs, hr] using hrest
      · obtain ⟨hs1, hs2, hs3⟩ := hs
        obtain ⟨hr1, hr2, hr3⟩ := hr
        exact ih ⟨by simp; omega, by simp; omega, by simp; omega⟩ hrest

theorem valid_empty : Valid empty := by
  intro r hr
  cases hr

theorem Valid.insert {set : SequenceSet} {r : SeqRange} (hset : set.Valid) (hr : r.Valid) :
    (set.insert r).Valid := by
  simp only [Valid, ranges, List.mem_append, List.mem_map] at hset ⊢
  cases r with
  | span s =>
    intro u hu
    rcases hu with ⟨t, ht, rfl⟩ | ⟨t, ht, rfl⟩
    · exact valid_insertSpan hr (fun u hu => hset (.span u) (.inl ⟨u, hu, rfl⟩)) t ht
    · exact hset _ (.inr ⟨t, ht, rfl⟩)
  | openEnded o =>
    unfold SequenceSet.insert
    dsimp only
    split
    · exact hset
    · intro u hu
      rcases hu with ⟨t, ht, rfl⟩ | ⟨t, ht, rfl⟩
      · exact hset _ (.inl ⟨t, ht, rfl⟩)
      · rcases List.mem_append.mp ht with ht | ht
        · exact hset _ (.inr ⟨t, ht, rfl⟩)
        · obtain rfl := List.mem_singleton.mp ht
          exact hr

/-! ### Sets that the operations build -/

/-- The sets that can be built: by a constructor, from a text, and from other sets. -/
inductive Reachable : SequenceSet → Prop
  | empty : Reachable empty
  | single {n : Nat} {set : SequenceSet} (h : single? n = some set) : Reachable set
  | range {a b : Nat} {set : SequenceSet} (h : range? a b = some set) : Reachable set
  | rangeFrom {first : Nat} {set : SequenceSet} (h : rangeFrom? first = some set) : Reachable set
  | all : Reachable all
  | ofNums (ns : List Nat) : Reachable (ofNums ns)
  | parse {s : String} {set : SequenceSet} (h : parse s = .ok set) : Reachable set
  | addNum {set : SequenceSet} (n : Nat) (h : Reachable set) : Reachable (set.addNum n)
  | addRange {set : SequenceSet} (a b : Nat) (h : Reachable set) : Reachable (set.addRange a b)
  | extend {set other : SequenceSet} (h : Reachable set) (ho : Reachable other) :
      Reachable (set.extend other)

/-- A text that is read falls into valid ranges, and the set is made of them. -/
theorem exists_ranges_of_parse {text : String} {set : SequenceSet} (h : parse text = .ok set) :
    ∃ rs, ((utf8 text).splitOn Ascii.comma).mapM SeqRange.decode? = some rs ∧
      (∀ r ∈ rs, r.Valid) ∧ ofRanges rs = set := by
  unfold SequenceSet.parse at h
  split at h
  next set' hread =>
    cases h
    obtain ⟨rs, hrs, rfl⟩ := Option.map_eq_some_iff.mp hread
    refine ⟨rs, hrs, fun r hr => ?_, rfl⟩
    obtain ⟨part, -, hpart⟩ := (mem_mapM_iff hrs).mp hr
    exact SeqRange.valid_of_decode? hpart
  next => cases h

section Induction

variable {motive : SequenceSet → Prop}
  (insert : ∀ set r, motive set → r.Valid → motive (set.insert r))

include insert

theorem addNum_induction {set : SequenceSet} (h : motive set) (n : Nat) :
    motive (set.addNum n) := by
  unfold addNum
  split
  next hn =>
    rw [isNumber_iff] at hn
    exact insert _ _ h ⟨hn.1, Nat.le_refl n, hn.2⟩
  next => exact h

theorem addRange_induction {set : SequenceSet} (h : motive set) (a b : Nat) :
    motive (set.addRange a b) := by
  unfold addRange
  split
  next hab => exact insert _ _ h (Span.valid_between hab.1 hab.2)
  next => exact h

theorem foldl_insert_induction {set : SequenceSet} (h : motive set) {rs : List SeqRange}
    (hrs : ∀ r ∈ rs, r.Valid) : motive (rs.foldl SequenceSet.insert set) := by
  induction rs generalizing set with
  | nil => exact h
  | cons r rs ih =>
    exact ih (insert _ _ h (hrs r (by simp))) fun t ht => hrs t (by simp [ht])

end Induction

/-- What holds of the empty set and stays true when a valid range is added holds of every set that
can be built, and the ranges of the set are valid. -/
theorem Reachable.induction {motive : SequenceSet → Prop} (nil : motive SequenceSet.empty)
    (insert : ∀ set r, motive set → r.Valid → motive (set.insert r)) {set : SequenceSet}
    (h : Reachable set) : motive set ∧ set.Valid := by
  -- The ranges of the other set in a union have to be valid, so both are proved at once.
  have step : ∀ set r, motive set ∧ set.Valid → r.Valid →
      motive (set.insert r) ∧ (set.insert r).Valid :=
    fun set r h hr => ⟨insert set r h.1 hr, h.2.insert hr⟩
  have start : motive SequenceSet.empty ∧ SequenceSet.empty.Valid := ⟨nil, valid_empty⟩
  induction h with
  | empty => exact start
  | single h | range h =>
    obtain ⟨-, h⟩ := Option.ite_none_right_eq_some.mp h
    cases h
    exact addRange_induction step start _ _
  | rangeFrom h =>
    obtain ⟨hn, h⟩ := Option.ite_none_right_eq_some.mp h
    cases h
    exact step _ _ start hn
  | all =>
    have one : isNumber 1 := by decide
    exact step _ _ start one
  | ofNums ns =>
    have nums : ∀ (ns : List Nat) (set : SequenceSet), motive set ∧ set.Valid →
        motive (ns.foldl SequenceSet.addNum set) ∧ (ns.foldl SequenceSet.addNum set).Valid := by
      intro ns
      induction ns with
      | nil => exact fun set h => h
      | cons n ns ih => exact fun set h => ih _ (addNum_induction step h n)
    exact nums ns _ start
  | parse h =>
    obtain ⟨rs, -, hvalid, rfl⟩ := exists_ranges_of_parse h
    exact foldl_insert_induction step start hvalid
  | addNum n _ ih => exact addNum_induction step ih n
  | addRange a b _ ih => exact addRange_induction step ih a b
  | extend _ _ ih iho => exact foldl_insert_induction step ih iho.2

/-- The ranges of a set that can be built are valid. -/
theorem Reachable.valid {set : SequenceSet} (h : Reachable set) : set.Valid :=
  (h.induction (motive := fun _ => True) trivial fun _ _ _ _ => trivial).2

end SequenceSet
end ImapSearch
