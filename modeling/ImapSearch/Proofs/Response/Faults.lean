import ImapSearch.Proofs.Scan.Faults

/-!
# ImapSearch.Proofs.Response.Faults

**How a response is rejected.** Whatever the bytes, there are two kinds of errors
(`Response.error_cases`): a fault, at a place that lies within the input, and a text that
is no sequence set.

As in `ImapSearch.Proofs.Scan.Faults` the scans are gone through once, for any property of
errors. Only the fields of an extended result, and what contains them, need the property
of the second kind of errors.
-/

namespace ImapSearch

namespace Scan

variable {α β : Type} {E : Cursor → Error → Prop}

theorem failsAs_line : FailsAs E line := by
  intro c d e h
  unfold line at h
  split at h <;> cases h

theorem failsAs_remark : FailsAs E remark :=
  (failsAs_eat _).bind fun _ => failsAs_line.map _

theorem failsAs_continuation : FailsAs E continuation := failsAs_remark.map _

section Fault

variable (hfault : ∀ (d : Cursor) (fault : Fault), E d (.malformed d.pos fault))

include hfault

/-! ### Parts without a sequence set -/

theorem failsAs_status : FailsAs E status := by
  refine (failsAs_atom hfault).bind fun name => ?_
  split
  · exact failsAs_pure _
  · exact failsAs_fail hfault _

theorem failsAs_tagged (tag : Tag) : FailsAs E (tagged tag) :=
  (failsAs_expectSpace hfault).bind fun _ => (failsAs_status hfault).bind fun _ =>
    failsAs_remark.bind fun _ => failsAs_pure _

theorem failsAs_capabilities : FailsAs E capabilities := by
  refine failsAs_spaced (FailsAs.map ?_ some)
  refine (failsAs_token hfault).bind fun t => ?_
  split
  · exact failsAs_pure _
  · exact failsAs_pure _
  · exact failsAs_fail hfault _

theorem failsAs_searchNums : FailsAs E searchNums := by
  have hitem : FailsAs E numberUnlessLineEnds := by
    refine failsAs_lineEnds.bind fun ends => ?_
    split
    · exact failsAs_pure _
    · exact (failsAs_number hfault).map _
  exact (failsAs_spaced hitem).bind fun _ => (failsAs_expectLineEnd hfault _).bind fun _ =>
    failsAs_pure _

theorem failsAs_numbered (n : Nat) : FailsAs E (numbered n) :=
  (failsAs_expectSpace hfault).bind fun _ => (failsAs_atom hfault).bind fun _ =>
    failsAs_line.map _

theorem failsAs_correlator : FailsAs E correlator := by
  refine (failsAs_expect hfault _).bind fun _ => (failsAs_atom hfault).bind fun name => ?_
  split
  · exact (failsAs_expectSpace hfault).bind fun _ => (failsAs_string hfault).bind fun _ =>
      (failsAs_expect hfault _).bind fun _ => failsAs_pure _
  · exact failsAs_fail hfault _

/-! ### Extended results -/

variable (hset : ∀ (d : Cursor) (text : String), E d (.invalidSequenceSet text))

include hset

theorem failsAs_resultFieldOf (name : Bytes) : FailsAs E (resultFieldOf name) := by
  refine (failsAs_expectSpace hfault).bind fun _ => ?_
  unfold resultValue
  split
  · exact (failsAs_number hfault).map _
  · split
    · exact (failsAs_number hfault).map _
    · split
      · exact (failsAs_number hfault).map _
      · split
        · exact (failsAs_sequenceSet hfault hset).map _
        · exact (failsAs_discardValue hfault).map _

theorem failsAs_resultData (data : SearchData) (name : Bytes) :
    FailsAs E (resultData data name) := by
  have hfield : FailsAs E resultField :=
    (failsAs_atom hfault).bind fun name => failsAs_resultFieldOf hfault hset name
  refine FailsAs.map ?_ _
  exact (failsAs_resultFieldOf hfault hset name).bind fun _ =>
    (failsAs_spaced (hfield.map _)).bind fun _ =>
      (failsAs_expectLineEnd hfault _).bind fun _ => failsAs_pure _

omit hset in
theorem failsAs_unlessLineEnds {next : Scan SearchData} (h : FailsAs E next) (data : SearchData) :
    FailsAs E (unlessLineEnds next data) := by
  refine (failsAs_eat _).bind fun found => ?_
  split
  · exact h
  · exact (failsAs_expectLineEnd hfault _).bind fun _ => failsAs_pure _

theorem failsAs_extendedSearch : FailsAs E extendedSearch := by
  have hdata : ∀ data name, FailsAs E (resultData data name) := failsAs_resultData hfault hset
  have hbody : FailsAs E resultBody := by
    refine (failsAs_atom hfault).bind fun name => ?_
    split
    · exact failsAs_unlessLineEnds hfault ((failsAs_atom hfault).bind fun name => hdata _ name) _
    · exact hdata _ _
  refine (failsAs_eat _).bind fun found => ?_
  split
  · refine failsAs_peek.bind fun b => ?_
    split
    · exact (failsAs_correlator hfault).bind fun tag =>
        (failsAs_unlessLineEnds hfault hbody _).map _
    · exact hbody.map _
  · exact (failsAs_expectLineEnd hfault _).bind fun _ => failsAs_pure _

/-! ### Responses -/

theorem failsAs_untagged : FailsAs E untagged := by
  refine (failsAs_expectSpace hfault).bind fun _ => (failsAs_token hfault).bind fun t => ?_
  split
  · unfold untaggedBody
    split
    · exact failsAs_remark.map _
    · split
      · exact (failsAs_capabilities hfault).map _
      · split
        · exact (failsAs_searchNums hfault).map _
        · split
          · exact failsAs_extendedSearch hfault hset
          · exact failsAs_line.map _
  · exact failsAs_numbered hfault _
  · exact failsAs_fail hfault _

theorem failsAs_response
    (hfirst : ∀ (d : Cursor) (fault : Fault), E d (.malformed 0 fault)) : FailsAs E response := by
  refine (failsAs_token hfault).bind fun t => ?_
  split
  · exact (failsAs_untagged hfault hset).map _
  · exact failsAs_continuation
  · exact failsAs_tagged hfault _
  · intro c d e h
    cases h
    exact hfirst c _

end Fault

/-- How a response is rejected, seen from the place where reading stopped. -/
inductive Rejects (d : Cursor) : Error → Prop
  /-- There is a fault, at that place or in front of it. -/
  | malformed {position : Nat} (h : position ≤ d.pos) (fault : Fault) :
      Rejects d (.malformed position fault)
  /-- A text is no sequence set. -/
  | invalidSequenceSet (text : String) : Rejects d (.invalidSequenceSet text)

theorem failsAs_response_rejects : FailsAs Rejects response :=
  failsAs_response (fun d fault => .malformed (Nat.le_refl d.pos) fault)
    (fun _ text => .invalidSequenceSet text) fun d fault => .malformed (Nat.zero_le d.pos) fault

end Scan

theorem Cursor.Reaches.pos_le {c d : Cursor} (h : c.Reaches d) : d.pos ≤ c.pos + c.rest.length := by
  obtain ⟨read, hrest, hpos⟩ := h
  rw [hrest, hpos, List.length_append]
  omega

namespace Response

/-- A response is rejected because of a fault that lies within the input, or because of a text that
is no sequence set. -/
theorem error_cases {input : Bytes} {e : Error} (h : parse input = .error e) :
    (∃ position fault, e = .malformed position fault ∧ position ≤ input.length) ∨
      ∃ text, e = .invalidSequenceSet text := by
  unfold parse at h
  split at h
  next => cases h
  next e' d hread =>
    cases h
    have hpos : d.pos ≤ input.length := by
      have hreach := (Scan.forward_response.error hread).pos_le
      simpa [Cursor.start] using hreach
    cases Scan.failsAs_response_rejects hread with
    | malformed hposition fault => exact .inl ⟨_, fault, rfl, Nat.le_trans hposition hpos⟩
    | invalidSequenceSet text => exact .inr ⟨text, rfl⟩

end Response

end ImapSearch
