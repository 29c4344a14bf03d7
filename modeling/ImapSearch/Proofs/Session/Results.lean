import ImapSearch.Proofs.InFlight.Data
import ImapSearch.Proofs.Scan.Ensures
import ImapSearch.Proofs.Scan.Reads
import ImapSearch.Proofs.SequenceSet.Nums
import ImapSearch.Proofs.Session.Run

/-!
# ImapSearch.Proofs.Session.Results

**Results can be listed.** A result whose set reached to `*` could not be listed, and
would look like one without numbers. No result does: a star is no atom character, so the
set of an extended result is read from a text without one (`Scan.ensures_sequenceSet`),
and the numbers of a plain result are added one by one. So whatever a session receives,
the numbers of a search in flight and those handed to a caller are listed in full and in
ascending order (`Session.results_isListed`).
-/

namespace ImapSearch

/-! ### Results that can be listed -/

/-- A set that can be built and does not reach to `*`. -/
structure SequenceSet.IsListable (set : SequenceSet) : Prop where
  reachable : set.Reachable
  not_isDynamic : set.isDynamic = false

/-- A result whose set is in normal form without `*`, so that its numbers are listed in full and in
ascending order. -/
structure SearchData.IsListed (data : SearchData) : Prop where
  not_isDynamic : data.all.isDynamic = false
  isNormal : data.all.IsNormal
  ascending : data.allNums.Pairwise (· < ·)
  mem_iff : ∀ n, n ∈ data.allNums ↔ data.all.contains n
  isEmpty_of_nil : data.allNums = [] → data.all.isEmpty

theorem SearchData.isListed {data : SearchData} (h : data.all.IsListable) : data.IsListed := by
  obtain ⟨ns, hns⟩ := Option.isSome_iff_exists.mp (SequenceSet.isSome_nums? h.not_isDynamic)
  have hnums : data.allNums = ns := by rw [allNums, hns, Option.getD_some]
  have hnormal := h.reachable.isNormal
  refine ⟨h.not_isDynamic, hnormal, ?_, fun n => ?_, fun hnil => ?_⟩
  · rw [hnums]
    exact hnormal.pairwise_of_nums? hns
  · rw [hnums]
    exact SequenceSet.mem_of_nums? hns
  · rw [hnums] at hnil
    subst hnil
    exact hnormal.isEmpty_of_nums? hns

namespace SequenceSet

theorem isListable_empty : IsListable {} := ⟨.empty, rfl⟩

theorem IsListable.addNum {set : SequenceSet} (h : set.IsListable) (n : Nat) :
    (set.addNum n).IsListable := by
  refine ⟨h.reachable.addNum n, ?_⟩
  rw [isDynamic, dynamic_addNum]
  exact h.not_isDynamic

theorem IsListable.foldl_addNum {set : SequenceSet} (h : set.IsListable) (ns : List Nat) :
    (ns.foldl SequenceSet.addNum set).IsListable := by
  induction ns generalizing set with
  | nil => exact h
  | cons n ns ih => exact ih (h.addNum n)

theorem isListable_of_single? {n : Nat} {set : SequenceSet} (h : single? n = some set) :
    set.IsListable := by
  refine ⟨.single h, ?_⟩
  obtain ⟨-, h⟩ := Option.ite_none_right_eq_some.mp h
  cases h
  rw [addRange]
  split <;> rfl

theorem isListable_of_decode? {bs : Bytes} {set : SequenceSet} (hbs : ∀ b ∈ bs, isAtomByte b)
    (h : decode? bs = some set) : set.IsListable := by
  have hascii : utf8 (asciiText bs) = bs := utf8_asciiText fun b hb => lt_of_isAtomByte (hbs b hb)
  have hparse : parse (asciiText bs) = .ok set := by rw [parse, hascii, h]
  refine ⟨.parse hparse, isDynamic_of_decode? (fun hstar => ?_) h⟩
  exact absurd (hbs _ hstar) (by decide)

end SequenceSet

/-! ### What is read -/

namespace Scan

/-- A set that is read can be listed, since a star is a token by itself. -/
theorem ensures_sequenceSet : sequenceSet.Ensures SequenceSet.IsListable := by
  refine ensures_token_atomFits.bind fun t ht => ?_
  split
  next n =>
    cases h : SequenceSet.single? n with
    | none => exact ensures_fail _
    | some set => exact ensures_pure (SequenceSet.isListable_of_single? h)
  next name =>
    cases h : SequenceSet.decode? name with
    | none =>
      intro c d set hok
      cases hok
    | some set => exact ensures_pure (SequenceSet.isListable_of_decode? (ht name rfl) h)
  next => exact ensures_fail _

theorem ensures_resultValue (name : Bytes) :
    (resultValue name).Ensures fun field => ∀ set, field = .all set → set.IsListable := by
  unfold resultValue
  split
  · exact Ensures.map fun _ _ _ _ _ heq => by cases heq
  · split
    · exact Ensures.map fun _ _ _ _ _ heq => by cases heq
    · split
      · exact Ensures.map fun _ _ _ _ _ heq => by cases heq
      · split
        · refine Ensures.map fun c d set hok set' heq => ?_
          cases heq
          exact ensures_sequenceSet hok
        · exact Ensures.map fun _ _ _ _ _ heq => by cases heq

end Scan

/-- The set of an extended result that was read can be listed. -/
theorem Response.isListable_of_parse {input : Bytes} {tag : Option Tag} {data : SearchData}
    (h : parse input = .ok (.untagged (.extendedSearch tag data))) : data.all.IsListable := by
  have hadd : ∀ (data : SearchData) (field : ResultField), data.all.IsListable →
      (∀ set, field = .all set → set.IsListable) → (data.addField field).all.IsListable := by
    intro data field hdata hfield
    cases field with
    | all set => exact hfield set rfl
    | _ => exact hdata
  have hresponse : Scan.response.Ensures fun r => ∀ found, r = .untagged found →
      ∀ tag data, found = .extendedSearch tag data → data.all.IsListable := by
    refine Scan.ensures_response (fun found _ hne tag data heq => absurd heq (hne tag data)) ?_ ?_
    · exact fun _ _ _ _ _ _ heq => by cases heq
    · intro c d found hok tag data heq
      obtain ⟨tag', data', rfl, hdata⟩ := Scan.ensures_extendedSearch hadd Scan.ensures_resultValue
        (fun _ => SequenceSet.isListable_empty) hok
      cases heq
      exact hdata
  exact of_parse hresponse h _ rfl tag data rfl

/-! ### Runs -/

namespace Session

open InFlight

variable {P : SearchData → Prop}
  (hresult : ∀ input tag data,
    Response.parse input = .ok (.untagged (.extendedSearch tag data)) → P data)

include hresult

/-- An extended result reaches the searches in flight only if it was read. -/
theorem brings_op? (s : Session) (event : Event) : ∀ op ∈ s.op? event, op.Brings P := by
  intro op hop
  cases event with
  | issue command =>
    rw [op?] at hop
    split at hop <;> (cases hop; trivial)
  | close =>
    cases hop
    trivial
  | abandon id =>
    cases hop
    trivial
  | receive input =>
    obtain ⟨r, hparse, hr⟩ := of_op?_receive hop
    obtain ⟨_, _, _, -, rfl⟩ | ⟨_, -, rfl⟩ | ⟨tag, data, rfl, rfl⟩ | ⟨_, -, rfl⟩ :=
      Response.of_op? hr
    · trivial
    · trivial
    · exact hresult input tag data hparse
    · trivial

variable (hfresh : ∀ uid, P { uid }) (hadd : ∀ data nums, P data → P (data.addNums nums))

include hfresh hadd

/-- A property that results have from the beginning, keep, and have when they arrive, holds of all
results of a run. -/
theorem holds_run {s : Session} (h : s.inFlight.Holds P) (events : List Event) :
    (s.run events).inFlight.Holds P := by
  induction events generalizing s with
  | nil => exact h
  | cons event events ih =>
    refine ih ?_
    rw [inFlight_step]
    refine h.run hfresh hadd fun op hop => ?_
    exact brings_op? hresult s event op (Option.mem_toList.mp hop)

omit hresult hfresh hadd

/-- Whatever happens to a session, the numbers of every search in flight and of every result that
was handed to a caller are listed in full. -/
theorem results_isListed (first : Char) (events : List Event) :
    (∀ e ∈ ((withTags first).run events).inFlight.entries, e.data.IsListed) ∧
      ∀ id data, (id, .ok data) ∈ ((withTags first).run events).inFlight.delivered →
        data.IsListed := by
  have hresult : ∀ input tag data,
      Response.parse input = .ok (.untagged (.extendedSearch tag data)) → data.all.IsListable :=
    fun _ _ _ => Response.isListable_of_parse
  have hholds := holds_run hresult (fun _ => SequenceSet.isListable_empty)
    (fun _ nums hdata => hdata.foldl_addNum nums)
    (holds_empty fun data => data.all.IsListable) events (s := withTags first)
  exact ⟨fun e he => SearchData.isListed (hholds.entries e he),
    fun id data hdelivered => SearchData.isListed (hholds.delivered id data hdelivered)⟩

/-- A search that is over and one in flight, whose set is not replaced by one that reaches to
`*`. -/
def mixedResults : List Event :=
  [.issue ⟨.everything, [], .search⟩, .receive (utf8 "* SEARCH 7 2 1 3\r\n"),
    .issue ⟨.everything, [.all], .uidSearch⟩, .receive (utf8 "A0000 OK done\r\n"),
    .receive (utf8 "* ESEARCH (TAG \"A0001\") UID ALL 4:5\r\n"),
    .receive (utf8 "* ESEARCH (TAG \"A0001\") UID ALL 1:*\r\n")]

theorem results_isListed_mixedResults :
    ((withTags 'A').run mixedResults).inFlight.entries.map (·.data.allNums) = [[4, 5]] ∧
    ((withTags 'A').run mixedResults).inFlight.delivered.map
      (fun d => (d.1, d.2.toOption.map SearchData.allNums)) = [(0, some [1, 2, 3, 7])] ∧
    (∀ e ∈ ((withTags 'A').run mixedResults).inFlight.entries, e.data.IsListed) ∧
    ∀ id data, (id, .ok data) ∈ ((withTags 'A').run mixedResults).inFlight.delivered →
      data.IsListed :=
  ⟨by decide +kernel, by decide +kernel, results_isListed 'A' mixedResults⟩

end Session

end ImapSearch
