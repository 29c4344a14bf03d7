import ImapSearch.Proofs.SequenceSet.Reachable
import Mathlib.Data.List.Nodup

/-!
# ImapSearch.Proofs.SequenceSet.Ranges

**The ranges of a set as one list.** Whoever writes a set or goes through it sees one
list of ranges: the spans, then the ranges that reach to `*`. In a set that the
library can build the spans ascend, a number is missing between any two of them, and
the other ranges are different from each other (`SequenceSet.Reachable.ranges_ordered`).

Adding a range is one pass over this list (`insertRange`): a span is placed among the
spans and merged with those that it meets, and what reaches to `*` stays behind them.
So the pass keeps the order of the ranges (`Ordered.insertRange`), and the list of every
set that can be built comes from such passes (`SequenceSet.Reachable.ordered`).

The pass can be made in numbers of 32 bits. There the number behind the largest one is
the largest one again (`succ32`), which makes no difference, since no span begins behind
it (`succ32_lt_iff`).
-/

namespace ImapSearch

/-! ### One pass over the ranges -/

/-- One more than a number, in numbers of 32 bits that do not wrap around. -/
def succ32 (n : Nat) : Nat := min (n + 1) maxNumber

/-- Places a span among ranges and merges it with the spans that it overlaps or touches. -/
def placeSpan (s : Span) : List SeqRange → List SeqRange
  | [] => [.span s]
  | .openEnded o :: rest => .span s :: .openEnded o :: rest
  | .span r :: rest =>
    if succ32 r.last < s.first then .span r :: placeSpan s rest
    else if succ32 s.last < r.first then .span s :: .span r :: rest
    else placeSpan ⟨min s.first r.first, max s.last r.last⟩ rest

/-- Adds a range to ranges. One that reaches to `*` is added at the end, and only once. -/
def insertRange (rs : List SeqRange) : SeqRange → List SeqRange
  | .span s => placeSpan s rs
  | .openEnded o => if .openEnded o ∈ rs then rs else rs ++ [.openEnded o]

theorem succ32_lt_iff {m n : Nat} (hn : n ≤ maxNumber) : succ32 m < n ↔ m + 1 < n := by
  unfold succ32
  omega

theorem Span.Valid.first_le {s : Span} (h : s.Valid) : s.first ≤ maxNumber :=
  Nat.le_trans h.first_le_last h.last_le

theorem placeSpan_eq {s : Span} {spans : List Span} (hs : s.Valid) (hspans : ∀ t ∈ spans, t.Valid)
    (dynamic : List OpenRange) :
    placeSpan s (spans.map .span ++ dynamic.map .openEnded)
      = (insertSpan s spans).map .span ++ dynamic.map .openEnded := by
  -- The span that is placed grows by those that it swallows, and stays valid.
  induction spans generalizing s with
  | nil => cases dynamic <;> rfl
  | cons r rest ih =>
    rw [List.forall_mem_cons] at hspans
    obtain ⟨hr, hrest⟩ := hspans
    rw [List.map_cons, List.cons_append, placeSpan, insertSpan,
      if_congr (succ32_lt_iff hs.first_le) rfl rfl, if_congr (succ32_lt_iff hr.first_le) rfl rfl]
    split
    · rw [ih hs hrest, List.map_cons, List.cons_append]
    · split
      · rfl
      · obtain ⟨hs1, hs2, hs3⟩ := hs
        obtain ⟨hr1, hr2, hr3⟩ := hr
        exact ih ⟨by dsimp only; omega, by dsimp only; omega, by dsimp only; omega⟩ hrest

/-! ### Ranges in order -/

/-- What a range and one behind it have to do with each other: a number is missing between two
spans, no span follows a range that reaches to `*`, and no such range is there twice. -/
def SeqRange.Before : SeqRange → SeqRange → Prop
  | .span s, .span t => s.last + 1 < t.first
  | .span _, .openEnded _ => True
  | .openEnded o, .openEnded p => o ≠ p
  | .openEnded _, .span _ => False

/-- Valid ranges in the order in which a set has them. -/
structure Ordered (rs : List SeqRange) : Prop where
  valid : ∀ r ∈ rs, r.Valid
  before : rs.Pairwise SeqRange.Before

theorem ordered_nil : Ordered [] := ⟨by simp, List.Pairwise.nil⟩

theorem ordered_cons {r : SeqRange} {rs : List SeqRange} :
    Ordered (r :: rs) ↔ r.Valid ∧ (∀ t ∈ rs, r.Before t) ∧ Ordered rs := by
  constructor
  · rintro ⟨hvalid, hbefore⟩
    rw [List.forall_mem_cons] at hvalid
    rw [List.pairwise_cons] at hbefore
    exact ⟨hvalid.1, hbefore.1, hvalid.2, hbefore.2⟩
  · rintro ⟨hr, hafter, hvalid, hbefore⟩
    exact ⟨List.forall_mem_cons.mpr ⟨hr, hvalid⟩, List.pairwise_cons.mpr ⟨hafter, hbefore⟩⟩

/-- What stands before a span that is placed and before the others stands before all of them. -/
theorem before_of_mem_placeSpan {r : SeqRange} {s : Span} {rs : List SeqRange}
    (hs : r.Before (.span s)) (hrs : ∀ t ∈ rs, r.Before t) : ∀ t ∈ placeSpan s rs, r.Before t := by
  fun_induction placeSpan s rs with
  | case1 s => exact List.forall_mem_singleton.mpr hs
  | case2 s o rest => exact List.forall_mem_cons.mpr ⟨hs, hrs⟩
  | case3 s t rest hbefore ih =>
    rw [List.forall_mem_cons] at hrs
    exact List.forall_mem_cons.mpr ⟨hrs.1, ih hs hrs.2⟩
  | case4 s t rest _ hbehind => exact List.forall_mem_cons.mpr ⟨hs, hrs⟩
  | case5 s t rest _ _ ih =>
    rw [List.forall_mem_cons] at hrs
    refine ih ?_ hrs.2
    cases r with
    | span u => exact Nat.lt_min.mpr ⟨hs, hrs.1⟩
    | openEnded o => exact hs.elim

/-- Placing a span keeps the order. -/
theorem Ordered.placeSpan {s : Span} {rs : List SeqRange} (hs : s.Valid) (h : Ordered rs) :
    Ordered (placeSpan s rs) := by
  -- The span that is placed grows by those that it swallows, and stays valid.
  fun_induction ImapSearch.placeSpan s rs with
  | case1 s => exact ordered_cons.mpr ⟨hs, by simp, ordered_nil⟩
  | case2 s o rest =>
    refine ordered_cons.mpr ⟨hs, List.forall_mem_cons.mpr ⟨trivial, fun t ht => ?_⟩, h⟩
    have hafter := (ordered_cons.mp h).2.1 t ht
    cases t with
    | span t => exact hafter.elim
    | openEnded p => trivial
  | case3 s t rest hbefore ih =>
    obtain ⟨ht, hafter, hrest⟩ := ordered_cons.mp h
    have hlt : SeqRange.Before (.span t) (.span s) := (succ32_lt_iff hs.first_le).mp hbefore
    exact ordered_cons.mpr ⟨ht, before_of_mem_placeSpan hlt hafter, ih hs hrest⟩
  | case4 s t rest _ hbehind =>
    obtain ⟨ht, hafter, -⟩ := ordered_cons.mp h
    have hlt := (succ32_lt_iff (Span.Valid.first_le ht)).mp hbehind
    refine ordered_cons.mpr ⟨hs, List.forall_mem_cons.mpr ⟨hlt, fun u hu => ?_⟩, h⟩
    cases u with
    | span u =>
      have hnext : t.last + 1 < u.first := hafter _ hu
      have hle := Span.Valid.first_le_last ht
      show s.last + 1 < u.first
      omega
    | openEnded o => trivial
  | case5 s t rest _ _ ih =>
    obtain ⟨⟨ht1, ht2, ht3⟩, -, hrest⟩ := ordered_cons.mp h
    obtain ⟨hs1, hs2, hs3⟩ := hs
    exact ih ⟨by dsimp only; omega, by dsimp only; omega, by dsimp only; omega⟩ hrest

/-- Adding a range keeps the order. -/
theorem Ordered.insertRange {r : SeqRange} {rs : List SeqRange} (h : Ordered rs) (hr : r.Valid) :
    Ordered (insertRange rs r) := by
  cases r with
  | span s => exact h.placeSpan hr
  | openEnded o =>
    unfold ImapSearch.insertRange
    dsimp only
    split
    next => exact h
    next hnew =>
      refine ⟨List.forall_mem_append.mpr ⟨h.valid, List.forall_mem_singleton.mpr hr⟩,
        List.pairwise_append.mpr ⟨h.before, List.pairwise_singleton _ _, ?_⟩⟩
      intro t ht u hu
      obtain rfl := List.mem_singleton.mp hu
      cases t with
      | span t => trivial
      | openEnded p =>
        rintro rfl
        exact hnew ht

/-- Ranges in order are spans and, behind them, ranges that reach to `*`. -/
theorem Ordered.exists_blocks {rs : List SeqRange} (h : Ordered rs) :
    ∃ (spans : List Span) (dynamic : List OpenRange),
      rs = spans.map .span ++ dynamic.map .openEnded := by
  induction rs with
  | nil => exact ⟨[], [], rfl⟩
  | cons r rest ih =>
    obtain ⟨-, hafter, hrest⟩ := ordered_cons.mp h
    obtain ⟨spans, dynamic, rfl⟩ := ih hrest
    cases r with
    | span s => exact ⟨s :: spans, dynamic, rfl⟩
    | openEnded o =>
      cases spans with
      | nil => exact ⟨[], o :: dynamic, rfl⟩
      | cons t spans => exact (hafter (.span t) List.mem_cons_self).elim

namespace SequenceSet

/-- Adding a range to a set is one pass over its ranges. -/
theorem ranges_insert {set : SequenceSet} {r : SeqRange} (h : set.Valid) (hr : r.Valid) :
    (set.insert r).ranges = insertRange set.ranges r := by
  cases r with
  | span s => exact (placeSpan_eq hr h.spans set.dynamic).symm
  | openEnded o =>
    have hmem : SeqRange.openEnded o ∈ set.ranges ↔ o ∈ set.dynamic := by simp [ranges]
    unfold insert insertRange
    dsimp only
    rw [if_congr hmem rfl rfl]
    split
    · rfl
    · simp only [ranges, List.map_append, List.map_cons, List.map_nil, List.append_assoc]

/-- The ranges of a set that can be built are in order: they come from one pass for each range that
was added. -/
theorem Reachable.ordered {set : SequenceSet} (h : Reachable set) : Ordered set.ranges := by
  refine (h.induction (motive := fun set => Ordered set.ranges) ordered_nil ?_).1
  intro set r hset hr
  rw [ranges_insert hset.valid hr]
  exact hset.insertRange hr

/-- The ranges of a set that can be built are spans and, behind them, ranges that reach to `*`. A
span ends where it begins or later. The spans ascend, and between two of them there is a number
that is missing, so what follows the end of the first is a number of 32 bits again. No range that
reaches to `*` is there twice. -/
theorem Reachable.ranges_ordered {set : SequenceSet} (h : Reachable set) :
    ∃ static dynamic : List SeqRange, set.ranges = static ++ dynamic ∧
      (∀ r ∈ static, ∃ first last, r.first? = some first ∧ r.last? = some last ∧
        1 ≤ first ∧ first ≤ last ∧ last ≤ maxNumber) ∧
      static.Pairwise (fun r t => ∀ last ∈ r.last?, ∀ first ∈ t.first?,
        last + 1 ≤ maxNumber ∧ last + 1 < first) ∧
      dynamic.Nodup ∧ ∀ r ∈ dynamic, r.isDynamic ∧ r.last? = none := by
  have hordered := h.ordered
  obtain ⟨spans, dynamic, hranges⟩ := hordered.exists_blocks
  rw [hranges] at hordered
  obtain ⟨hvalid, hbefore⟩ := hordered
  rw [List.forall_mem_append, List.forall_mem_map] at hvalid
  rw [List.pairwise_append, List.pairwise_map, List.pairwise_map] at hbefore
  refine ⟨spans.map .span, dynamic.map .openEnded, hranges, ?bounds, ?apart, ?nodup, ?star⟩
  case bounds =>
    rw [List.forall_mem_map]
    intro s hs
    obtain ⟨hfirst, hle, hlast⟩ := hvalid.1 s hs
    exact ⟨s.first, s.last, rfl, rfl, hfirst, hle, hlast⟩
  case apart =>
    rw [List.pairwise_map]
    refine hbefore.1.imp_of_mem fun {s t} _ ht hlt => ?_
    have hlast : s.last + 1 < t.first := hlt
    have hmax := Span.Valid.first_le (hvalid.1 t ht)
    rintro last ⟨⟩ first ⟨⟩
    exact ⟨by omega, hlast⟩
  case nodup =>
    have hnodup : dynamic.Nodup := hbefore.2.1
    exact hnodup.map fun _ _ => SeqRange.openEnded.inj
  case star =>
    rw [List.forall_mem_map]
    exact fun _ _ => ⟨rfl, rfl⟩

/-- Numbers in any order, a range that touches one of them, the largest number there is, and all
messages. -/
def mixedSet : SequenceSet :=
  (((ofNums [7, 2, 3]).addRange 10 8).extend ((empty.addNum 0).addNum maxNumber)).extend all

theorem ranges_ordered_mixedSet :
    mixedSet.ranges = [.span ⟨2, 3⟩, .span ⟨7, 10⟩, .span ⟨maxNumber, maxNumber⟩,
      .openEnded (.onward 1)] ∧
    ∃ static dynamic : List SeqRange, mixedSet.ranges = static ++ dynamic ∧
      (∀ r ∈ static, ∃ first last, r.first? = some first ∧ r.last? = some last ∧
        1 ≤ first ∧ first ≤ last ∧ last ≤ maxNumber) ∧
      static.Pairwise (fun r t => ∀ last ∈ r.last?, ∀ first ∈ t.first?,
        last + 1 ≤ maxNumber ∧ last + 1 < first) ∧
      dynamic.Nodup ∧ ∀ r ∈ dynamic, r.isDynamic ∧ r.last? = none :=
  ⟨by decide, Reachable.ranges_ordered
    ((((Reachable.ofNums [7, 2, 3]).addRange 10 8).extend
      ((Reachable.empty.addNum 0).addNum maxNumber)).extend .all)⟩

end SequenceSet

end ImapSearch
