import ImapSearch.Proofs.Scan.Walk

/-!
# ImapSearch.Proofs.Response.Walk

**A response is read token by token.** The readers of the parts of a response walk from
token to token (`Scan.Walks`), down to the reader of the response itself
(`Scan.walks_response`). A text is read only where the line is given up to it: at the end
of a status response, of a request to go on, and of a response that is not understood.
-/

namespace ImapSearch.Scan

variable {text : Bool}

/-! ### Extended search results -/

theorem walks_expectLineEnd (keyword : String) : Walks text (expectLineEnd keyword) := by
  refine walks_lineEnds.bind fun ends => ?_
  split
  · exact walks_pure _
  · exact walks_fail (by simp)

theorem walks_failSet {α : Type} (name : Bytes) : Walks text (failSet name : Scan α) :=
  fun c => ⟨[], c, .nil c, .fault fun ⟨_, heq⟩ => nomatch heq⟩

theorem walks_sequenceSet : Walks text sequenceSet := by
  refine walks_token_bind (fun t _ => ?_) (exists_fail _ (by simp))
  split
  · split
    · exact walks_pure _
    · exact walks_fail (by simp)
  · split
    · exact walks_pure _
    · exact walks_failSet _
  · exact walks_fail (by simp)

theorem walks_resultValue (name : Bytes) : Walks text (resultValue name) := by
  unfold resultValue
  split
  · exact walks_number.map _
  · split
    · exact walks_number.map _
    · split
      · exact walks_number.map _
      · split
        · exact walks_sequenceSet.map _
        · exact Walks.map (walks_discardNested 0) _

theorem walks_resultFieldOf (name : Bytes) : Walks text (resultFieldOf name) :=
  walks_expectSpace.bind fun _ => walks_resultValue name

theorem walks_resultField : Walks text resultField :=
  walks_atom.bind fun name => walks_resultFieldOf name

theorem walks_resultFields (name : Bytes) : Walks text (resultFields name) :=
  (walks_resultFieldOf name).bind fun _ => (walks_spaced _ (walks_resultField.map _)).bind fun _ =>
    (walks_expectLineEnd _).bind fun _ => walks_pure _

theorem walks_correlator : Walks text correlator := by
  refine (walks_expect (by simp [Token.kind])).bind fun _ => walks_atom.bind fun name => ?_
  split
  · exact walks_expectSpace.bind fun _ => walks_string.bind fun _ =>
      (walks_expect (by simp [Token.kind])).bind fun _ => walks_pure _
  · exact walks_fail (by simp)

theorem walks_unlessLineEnds {next : Scan SearchData} (h : Walks text next) (data : SearchData) :
    Walks text (unlessLineEnds next data) := by
  refine walks_space.bind fun found => ?_
  split
  · exact h
  · exact (walks_expectLineEnd _).bind fun _ => walks_pure _

theorem walks_resultData (data : SearchData) (name : Bytes) : Walks text (resultData data name) :=
  (walks_resultFields name).map _

theorem walks_resultBody : Walks text resultBody := by
  refine walks_atom.bind fun name => ?_
  split
  · exact walks_unlessLineEnds (walks_atom.bind fun name => walks_resultData _ name) _
  · exact walks_resultData _ _

theorem walks_extendedSearch : Walks text extendedSearch := by
  refine walks_space.bind fun found => ?_
  split
  · refine walks_peek.bind fun b => ?_
    split
    · exact walks_correlator.bind fun tag => (walks_unlessLineEnds walks_resultBody _).map _
    · exact walks_resultBody.map _
  · exact (walks_expectLineEnd _).bind fun _ => walks_pure _

/-! ### Texts -/

theorem walks_line : Walks true line := by
  intro c
  obtain ⟨bytes, after, hline⟩ : ∃ bytes after, line c = .ok bytes after := by
    unfold line
    split
    · exact ⟨_, _, rfl⟩
    · exact ⟨_, _, rfl⟩
  refine ⟨[], c, .nil c, ?_⟩
  rw [hline]
  exact .text rfl hline bytes

theorem walks_remark : Walks true remark := walks_space.bind fun _ => walks_line.map _

/-! ### Tagged responses -/

theorem walks_status : Walks text status := by
  refine walks_atom.bind fun name => ?_
  split
  · exact walks_pure _
  · exact walks_fail (by simp)

theorem walks_tagged (tag : Tag) : Walks true (tagged tag) := by
  refine walks_expectSpace.bind fun _ => walks_status.bind fun s => ?_
  rw [bind_pure_comp]
  exact walks_remark.map _

/-! ### Untagged responses -/

theorem walks_capability : Walks text capability := by
  refine walks_token_bind (fun t _ => ?_) (exists_fail _ (by simp))
  split
  · exact walks_pure _
  · exact walks_pure _
  · exact walks_fail (by simp)

theorem walks_numberUnlessLineEnds : Walks text numberUnlessLineEnds := by
  refine walks_lineEnds.bind fun ends => ?_
  split
  · exact walks_pure _
  · exact walks_number.map _

theorem walks_searchNums : Walks text searchNums :=
  (walks_spaced _ walks_numberUnlessLineEnds).bind fun _ =>
    (walks_expectLineEnd _).bind fun _ => walks_pure _

theorem walks_untaggedBody (keyword : Bytes) : Walks true (untaggedBody keyword) := by
  unfold untaggedBody
  split
  · exact walks_remark.map _
  · split
    · exact (walks_spaced _ (walks_capability.map _)).map _
    · split
      · exact walks_searchNums.map _
      · split
        · exact walks_extendedSearch
        · exact walks_line.map _

theorem walks_numbered (n : Nat) : Walks true (numbered n) :=
  walks_expectSpace.bind fun _ => walks_atom.bind fun _ => walks_line.map _

theorem walks_untagged : Walks true untagged := by
  refine walks_expectSpace.bind fun _ => walks_token_bind (fun t _ => ?_) (exists_fail _ (by simp))
  split
  · exact walks_untaggedBody _
  · exact walks_numbered _
  · exact walks_fail (by simp)

/-! ### Responses -/

theorem walks_response : Walks true response := by
  have hfail : ∀ t : Token, ¬ (Error.malformed 0 (.expectedResponse t)).IsIncomplete :=
    fun t => not_isIncomplete_malformed (by simp)
  refine walks_token_bind (fun t _ => ?_) fun d => ⟨_, hfail .lineEnd, rfl⟩
  split
  · exact walks_untagged.map _
  · exact walks_remark.map _
  · exact walks_tagged _
  · exact fun c => ⟨[], c, .nil c, .fault (hfail _)⟩

end ImapSearch.Scan
