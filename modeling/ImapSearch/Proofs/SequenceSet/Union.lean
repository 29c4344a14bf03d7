import ImapSearch.Proofs.SequenceSet.Normal
import ImapSearch.Proofs.SequenceSet.Text

/-!
# ImapSearch.Proofs.SequenceSet.Union

**Operations on sets are unions.** Whatever ranges are merged on the way, an operation
adds the numbers that it is given and no others: a number, the numbers between two
bounds, or those of another set (`SequenceSet.contains_addNum`,
`SequenceSet.contains_addRange`, `SequenceSet.contains_extend`).

A text is read part by part. A part is written with one bound or with two in either
order (`WritesRange`), and a bound is a number in digits or `*`, which stands for the
largest number there can be (`WritesBound`). The set that is read holds the numbers of
its parts (`SequenceSet.contains_of_parse`).
-/

namespace ImapSearch

/-! ### Bounds and ranges as they are written -/

/-- The bytes write a bound of a range, and it is this number. -/
inductive WritesBound : Bytes → Nat → Prop
  /-- The asterisk is the largest number there can be. -/
  | star : WritesBound [Ascii.star] maxNumber
  /-- Digits write a number. -/
  | digits {bs : Bytes} {n : Nat} (h : Decimal.decode? bs = some n) (hn : isNumber n) :
    WritesBound bs n

/-- The bytes write a range from one number to the other, in either order. -/
inductive WritesRange : Bytes → Nat → Nat → Prop
  /-- A range of one number is written as that number. -/
  | bound {bs : Bytes} {n : Nat} (h : WritesBound bs n) : WritesRange bs n n
  /-- Between two bounds there is a colon. -/
  | bounds {bs cs : Bytes} {m n : Nat} (hm : WritesBound bs m) (hn : WritesBound cs n) :
    WritesRange (bs ++ Ascii.colon :: cs) m n

/-- The number that a bound stands for, if `*` is the largest number there can be. -/
def Bound.value : Bound → Nat
  | .number n => n
  | .star => maxNumber

/-- A bound is written in digits, or as an asterisk. -/
theorem WritesBound.mem {bs : Bytes} {n : Nat} {b : UInt8} (h : WritesBound bs n) (hb : b ∈ bs) :
    Ascii.isDigit b ∨ b = Ascii.star := by
  cases h with
  | star => exact .inr (List.mem_singleton.mp hb)
  | digits h hn =>
    obtain ⟨⟨-, hdigits⟩, -⟩ := Option.ite_none_right_eq_some.mp h
    exact .inl (List.all_eq_true.mp hdigits b hb)

theorem WritesBound.colon_notMem {bs : Bytes} {n : Nat} (h : WritesBound bs n) :
    Ascii.colon ∉ bs := by
  intro hcolon
  rcases h.mem hcolon with hdigit | hstar
  · exact absurd hdigit (by decide)
  · exact absurd hstar (by decide)

/-- A bound is read as it is written. -/
theorem writesBound_iff {bs : Bytes} {n : Nat} :
    WritesBound bs n ↔ ∃ b, Bound.decode? bs = some b ∧ b.value = n := by
  have hstar : Decimal.decode? [Ascii.star] = none := by decide
  constructor
  · intro h
    cases h with
    | star => exact ⟨.star, rfl, rfl⟩
    | digits h hn =>
      have hne : bs ≠ [Ascii.star] := by
        intro hbs
        rw [hbs, hstar] at h
        cases h
      have hlt : n < maxNumber + 1 := Nat.lt_succ_of_le (isNumber_iff.mp hn).2
      refine ⟨.number n, ?_, rfl⟩
      rw [Bound.decode?, if_neg hne, Decimal.decodeBelow?_eq_filter, h]
      simp [Option.filter, hlt, hn]
  · intro h
    obtain ⟨b, hb, rfl⟩ := h
    unfold Bound.decode? at hb
    split at hb
    next hbs =>
      cases hb
      exact hbs ▸ .star
    next =>
      rw [Decimal.decodeBelow?_eq_filter] at hb
      simp only [Option.map_eq_some_iff, Option.filter_eq_some_iff] at hb
      obtain ⟨n, ⟨⟨hn, -⟩, hnumber⟩, rfl⟩ := hb
      exact .digits hn hnumber

/-- The range between two bounds holds the numbers between them. -/
theorem SeqRange.contains_ofBounds {a b : Bound} (ha : a.Valid) (hb : b.Valid) (k : Nat) :
    (ofBounds a b).contains k ↔ min a.value b.value ≤ k ∧ k ≤ max a.value b.value := by
  have hle : ∀ {n : Nat}, isNumber n → n ≤ maxNumber := fun hn => (isNumber_iff.mp hn).2
  cases a with
  | number m =>
    cases b with
    | number n => exact Span.contains_iff
    | star =>
      have hm : m ≤ maxNumber := hle ha
      simp [ofBounds, contains, OpenRange.contains, Bound.value, hm]
  | star =>
    cases b with
    | number n =>
      have hn : n ≤ maxNumber := hle hb
      simp [ofBounds, contains, OpenRange.contains, Bound.value, hn]
    | star =>
      simp [ofBounds, contains, OpenRange.contains, Bound.value]
      omega

/-- A range is read as it is written. -/
theorem WritesRange.exists_decode? {part : Bytes} {m n : Nat} (h : WritesRange part m n) :
    ∃ r, SeqRange.decode? part = some r ∧ ∀ k, r.contains k ↔ min m n ≤ k ∧ k ≤ max m n := by
  cases h with
  | bound h =>
    obtain ⟨b, hb, rfl⟩ := writesBound_iff.mp h
    have hvalid := Bound.valid_of_decode? hb
    refine ⟨.ofBounds b b, ?_, SeqRange.contains_ofBounds hvalid hvalid⟩
    rw [SeqRange.decode?_bound h.colon_notMem, hb]
    rfl
  | bounds hm hn =>
    obtain ⟨a, ha, rfl⟩ := writesBound_iff.mp hm
    obtain ⟨b, hb, rfl⟩ := writesBound_iff.mp hn
    refine ⟨.ofBounds a b, ?_,
      SeqRange.contains_ofBounds (Bound.valid_of_decode? ha) (Bound.valid_of_decode? hb)⟩
    rw [SeqRange.decode?_bounds hm.colon_notMem, ha, hb]
    rfl

/-- What is read as a range writes one. -/
theorem exists_writesRange {part : Bytes} {r : SeqRange} (h : SeqRange.decode? part = some r) :
    ∃ m n, WritesRange part m n := by
  by_cases hcolon : Ascii.colon ∈ part
  · obtain ⟨bs, cs, rfl, hbs⟩ := List.eq_append_cons_of_mem hcolon
    rw [SeqRange.decode?_bounds hbs] at h
    obtain ⟨a, ha, h⟩ := Option.bind_eq_some_iff.mp h
    obtain ⟨b, hb, -⟩ := Option.map_eq_some_iff.mp h
    exact ⟨_, _, .bounds (writesBound_iff.mpr ⟨a, ha, rfl⟩) (writesBound_iff.mpr ⟨b, hb, rfl⟩)⟩
  · rw [SeqRange.decode?_bound hcolon] at h
    obtain ⟨b, hb, -⟩ := Option.map_eq_some_iff.mp h
    exact ⟨_, _, .bound (writesBound_iff.mpr ⟨b, hb, rfl⟩)⟩

namespace SequenceSet

/-! ### The numbers of a set -/

/-- Adding the numbers between two bounds adds these, if both bounds can number a message. -/
theorem contains_addRange {set : SequenceSet} (h : set.Valid) (a b n : Nat) :
    (set.addRange a b).contains n ↔
      set.contains n ∨ (isNumber a ∧ isNumber b) ∧ min a b ≤ n ∧ n ≤ max a b := by
  unfold addRange
  split
  next hab =>
    have hvalid : (SeqRange.span (Span.between a b)).Valid := Span.valid_between hab.1 hab.2
    rw [contains_insert h hvalid, SeqRange.contains, Span.contains_iff]
    simp only [hab, and_self, true_and, Span.between]
  next hab => simp [hab]

theorem contains_foldl_insert {set : SequenceSet} (h : set.Valid) {rs : List SeqRange}
    (hrs : ∀ r ∈ rs, r.Valid) (n : Nat) :
    (rs.foldl insert set).contains n ↔ set.contains n ∨ ∃ r ∈ rs, r.contains n := by
  induction rs generalizing set with
  | nil => simp
  | cons r rs ih =>
    obtain ⟨hr, hrs⟩ := List.forall_mem_cons.mp hrs
    rw [List.foldl_cons, ih (h.insert hr) hrs, contains_insert h hr, or_assoc]
    simp only [List.mem_cons, exists_eq_or_imp]

/-- Adding a set adds its numbers. -/
theorem contains_extend {set other : SequenceSet} (h : set.Valid) (ho : other.Valid) (n : Nat) :
    (set.extend other).contains n ↔ set.contains n ∨ other.contains n := by
  rw [extend, contains_foldl_insert h ho]
  exact or_congr_right List.any_eq_true.symm

/-- The set of ranges holds their numbers. -/
theorem contains_ofRanges {rs : List SeqRange} (hrs : ∀ r ∈ rs, r.Valid) (n : Nat) :
    (ofRanges rs).contains n ↔ ∃ r ∈ rs, r.contains n := by
  have hempty : empty.contains n = false := rfl
  rw [ofRanges, contains_foldl_insert valid_empty hrs, hempty]
  simp

/-- What numbers no message is in no set. -/
theorem isNumber_of_contains {set : SequenceSet} (h : set.Valid) {n : Nat} (hn : set.contains n) :
    isNumber n := by
  rw [isNumber_iff]
  obtain ⟨r, hr, hn⟩ := List.any_eq_true.mp hn
  have hvalid := h r hr
  cases r with
  | span s =>
    obtain ⟨hfirst, -, hlast⟩ := hvalid
    have hn := Span.contains_iff.mp hn
    omega
  | openEnded o =>
    cases o with
    | onward first =>
      have hfirst := (isNumber_iff.mp hvalid).1
      simp only [SeqRange.contains, OpenRange.contains, Bool.and_eq_true, decide_eq_true_eq] at hn
      omega
    | star =>
      obtain rfl : n = maxNumber := by simpa [SeqRange.contains, OpenRange.contains] using hn
      decide

/-! ### The set of a text -/

/-- The parts of a text of a set: what stands between its commas. -/
def textParts (text : String) : List Bytes := (utf8 text).splitOn Ascii.comma

/-- Each part of a text that is read writes a range. -/
theorem exists_writesRange_of_parse {text : String} {set : SequenceSet} (h : parse text = .ok set) :
    ∀ part ∈ textParts text, ∃ m n, WritesRange part m n := by
  obtain ⟨rs, hrs, -, -⟩ := exists_ranges_of_parse h
  intro part hpart
  obtain ⟨r, hr⟩ := exists_eq_some_of_mapM hrs hpart
  exact exists_writesRange hr

/-- The set of a text holds the numbers of its parts. -/
theorem contains_of_parse {text : String} {set : SequenceSet} (h : parse text = .ok set) (k : Nat) :
    set.contains k ↔ ∃ part ∈ textParts text, ∃ m n, WritesRange part m n ∧
      min m n ≤ k ∧ k ≤ max m n := by
  obtain ⟨rs, hrs, hvalid, rfl⟩ := exists_ranges_of_parse h
  rw [contains_ofRanges hvalid]
  constructor
  · intro h
    obtain ⟨r, hr, hk⟩ := h
    obtain ⟨part, hpart, hread⟩ := (mem_mapM_iff hrs).mp hr
    obtain ⟨m, n, hwrites⟩ := exists_writesRange hread
    obtain ⟨r', hr', hnums⟩ := hwrites.exists_decode?
    obtain rfl : r = r' := Option.some.inj (hread.symm.trans hr')
    exact ⟨part, hpart, m, n, hwrites, (hnums k).mp hk⟩
  · intro h
    obtain ⟨part, hpart, m, n, hwrites, hk⟩ := h
    obtain ⟨r, hread, hnums⟩ := hwrites.exists_decode?
    exact ⟨r, (mem_mapM_iff hrs).mpr ⟨part, hpart, hread⟩, (hnums k).mpr hk⟩

/-! ### Numbers of 32 bits -/

theorem isNumber_toNat {n : UInt32} : isNumber n.toNat ↔ n ≠ 0 := by
  have hlt := n.toNat_lt
  have hzero : n = 0 ↔ n.toNat = 0 := UInt32.toNat_inj.symm
  rw [isNumber_iff, ne_eq, hzero, maxNumber]
  omega

/-- On sets that can be built, and for all numbers of 32 bits: adding a number adds that number,
unless it is zero; adding a range adds the numbers between its bounds in either order, unless one
of them is zero; adding a set adds its numbers. A text that is read writes a range in each of its
parts, and its set holds the numbers of these ranges. Zero is in no set. -/
theorem Reachable.contains_unions {set other : SequenceSet} (h : Reachable set)
    (ho : Reachable other) (k : UInt32) :
    (∀ m : UInt32, (set.addNum m.toNat).contains k.toNat ↔
      set.contains k.toNat ∨ k = m ∧ m ≠ 0) ∧
    (∀ a b : UInt32, (set.addRange a.toNat b.toNat).contains k.toNat ↔
      set.contains k.toNat ∨ (a ≠ 0 ∧ b ≠ 0) ∧
        min a.toNat b.toNat ≤ k.toNat ∧ k.toNat ≤ max a.toNat b.toNat) ∧
    ((set.extend other).contains k.toNat ↔ set.contains k.toNat ∨ other.contains k.toNat) ∧
    (∀ text parsed, SequenceSet.parse text = .ok parsed →
      (∀ part ∈ textParts text, ∃ m n, WritesRange part m n) ∧
      (parsed.contains k.toNat ↔ ∃ part ∈ textParts text, ∃ m n, WritesRange part m n ∧
        min m n ≤ k.toNat ∧ k.toNat ≤ max m n)) ∧
    set.contains 0 = false := by
  refine ⟨fun m => ?num, fun a b => ?range, ?extend, fun text parsed hparse => ?parse, ?zero⟩
  case num =>
    rw [contains_addNum h.valid, UInt32.toNat_inj, isNumber_toNat, and_comm]
    exact or_congr_right (and_congr_right fun heq => by rw [heq])
  case range => rw [contains_addRange h.valid, isNumber_toNat, isNumber_toNat]
  case extend => exact contains_extend h.valid ho.valid k.toNat
  case parse => exact ⟨exists_writesRange_of_parse hparse, contains_of_parse hparse k.toNat⟩
  case zero =>
    rw [Bool.eq_false_iff]
    intro hzero
    exact absurd (isNumber_of_contains h.valid hzero) (by decide)

/-- The largest number and the one before it, a range in the wrong order, and `*`. -/
theorem contains_unions_largest :
    parse "9:7,*" = .ok ⟨[⟨7, 9⟩], [.star]⟩ ∧
    (∀ k : UInt32, ((ofNums [5, 4294967295]).addRange 4294967294 6).contains k.toNat ↔
      (ofNums [5, 4294967295]).contains k.toNat ∨ 6 ≤ k.toNat ∧ k.toNat ≤ 4294967294) ∧
    (∀ k : UInt32, (⟨[⟨7, 9⟩], [.star]⟩ : SequenceSet).contains k.toNat ↔
      ∃ part ∈ textParts "9:7,*", ∃ m n, WritesRange part m n ∧
        min m n ≤ k.toNat ∧ k.toNat ≤ max m n) ∧
    (ofNums [5, 4294967295]).contains 0 = false := by
  have hparse : parse "9:7,*" = .ok ⟨[⟨7, 9⟩], [.star]⟩ := by decide +kernel
  have hunions := Reachable.contains_unions (.ofNums [5, 4294967295]) .all
  refine ⟨hparse, fun k => ?_, fun k => ((hunions k).2.2.2.1 _ _ hparse).2, (hunions 0).2.2.2.2⟩
  simpa using (hunions k).2.1 4294967294 6

end SequenceSet

end ImapSearch
