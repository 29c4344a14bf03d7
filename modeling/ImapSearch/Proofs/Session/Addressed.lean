import ImapSearch.Proofs.InFlight.Addressed
import ImapSearch.Proofs.Session.Run

/-!
# ImapSearch.Proofs.Session.Addressed

**Responses that name their search.** A tagged completion and an extended result
that comes with a tag are about one search each. A server that works on several
searches at a time may send them in any order: what the callers get, and what the
session is afterwards, depends only on the order of the responses that name the
same tag. To the searches in flight a response is an operation (`receivedOp?`), and
of operations that was shown (`InFlight.run_reorders`); a response that names its
search says nothing about the server (`Session.capabilities_run_receive`).
-/

namespace ImapSearch

/-- The tag by which a response names its search. -/
def Response.addressee? : Response → Option Tag
  | .tagged tag _ _ => some tag
  | .untagged (.extendedSearch tag _) => correlator? tag
  | _ => none

theorem Response.addressee?_eq_bind (r : Response) :
    r.addressee? = r.op?.bind InFlight.Op.addressee? := by
  cases r with
  | tagged tag status text => rfl
  | continuation text => rfl
  | untagged data =>
    cases data with
    | remark status text => cases status <;> rfl
    | _ => rfl

/-- The tag by which a complete response, as it was received, names its search. -/
def addressee? (input : Bytes) : Option Tag :=
  (Response.parse input).toOption.bind Response.addressee?

/-- What a complete response, as it was received, says of searches. -/
def receivedOp? (input : Bytes) : Option InFlight.Op :=
  (Response.parse input).toOption.bind Response.op?

theorem addressee?_eq_bind (input : Bytes) :
    addressee? input = (receivedOp? input).bind InFlight.Op.addressee? := by
  rw [addressee?, receivedOp?, Option.bind_assoc]
  exact Option.bind_congr fun r _ => r.addressee?_eq_bind

theorem isSome_addressee?_of_mem_filterMap {inputs : List Bytes}
    (h : ∀ input ∈ inputs, (addressee? input).isSome) {op : InFlight.Op}
    (hop : op ∈ inputs.filterMap receivedOp?) : op.addressee?.isSome := by
  obtain ⟨input, hinput, hreceived⟩ := List.mem_filterMap.mp hop
  have hsome := h input hinput
  rw [addressee?_eq_bind, hreceived] at hsome
  exact hsome

namespace Session

/-- A response that names its search says nothing about the server. -/
theorem capabilities_apply_of_addressee? {r : Response} (h : r.addressee?.isSome) (s : Session) :
    (s.apply r).capabilities = s.capabilities := by
  cases r with
  | tagged tag status text => rfl
  | continuation text => cases h
  | untagged data =>
    cases data with
    | extendedSearch tag data => rfl
    | _ => cases h

theorem capabilities_run_receive {inputs : List Bytes}
    (h : ∀ input ∈ inputs, (addressee? input).isSome) (s : Session) :
    (s.run (inputs.map .receive)).capabilities = s.capabilities := by
  induction inputs generalizing s with
  | nil => rfl
  | cons input inputs ih =>
    obtain ⟨hinput, hinputs⟩ := List.forall_mem_cons.mp h
    have hreceive : (s.receive input).1.capabilities = s.capabilities := by
      rw [addressee?] at hinput
      cases hparse : Response.parse input with
      | error e => rw [receive_of_error hparse]
      | ok r =>
        rw [hparse] at hinput
        rw [receive_of_ok hparse]
        exact capabilities_apply_of_addressee? hinput s
    exact (ih hinputs (s.step (.receive input))).trans hreceive

/-- Responses do to the searches in flight what each of them says. -/
theorem inFlight_run_receive (s : Session) (inputs : List Bytes) :
    (s.run (inputs.map .receive)).inFlight =
      s.inFlight.run (inputs.filterMap receivedOp?) := by
  induction inputs generalizing s with
  | nil => rfl
  | cons input inputs ih =>
    have hop : s.op? (.receive input) = receivedOp? input := rfl
    rw [List.map_cons, run_cons, ih, inFlight_step, hop, ← InFlight.run_append, List.filterMap_cons]
    cases receivedOp? input <;> rfl

/-- At every point of every run, responses that name their searches can come in any order that keeps
the order of those that name the same tag: every caller gets the same outcome, the same searches are
in flight with the same data, and the session knows the same of the server and of its connection. -/
theorem run_receive_addressed (first : Char) (events : List Event) {inputs inputs' : List Bytes}
    (h : ∀ input ∈ inputs, (addressee? input).isSome)
    (h' : ∀ input ∈ inputs', (addressee? input).isSome)
    (horder : SameOrder addressee? inputs inputs') :
    let s := ((withTags first).run events).run (inputs.map .receive)
    let s' := ((withTags first).run events).run (inputs'.map .receive)
    (∀ id, s.inFlight.outcomes id = s'.inFlight.outcomes id) ∧
      s.inFlight.entries = s'.inFlight.entries ∧
      s.capabilities = s'.capabilities ∧ s.isClosed = s'.isClosed := by
  intro s s'
  obtain ⟨ops, hops⟩ := exists_inFlight_run (withTags first) events
  have hreorders : InFlight.Reorders s.inFlight s'.inFlight := by
    rw [inFlight_run_receive, inFlight_run_receive]
    exact InFlight.run_reorders (fun _ => isSome_addressee?_of_mem_filterMap h)
      (fun _ => isSome_addressee?_of_mem_filterMap h') (horder.filterMap addressee?_eq_bind) _
  refine ⟨fun id => hreorders.outcomes_eq ?_, hreorders.entries, ?_, hreorders.closed⟩
  · rw [inFlight_run_receive, hops, ← InFlight.run_append]
    exact InFlight.length_outcomes_run_le _ id
  · exact (capabilities_run_receive h _).trans (capabilities_run_receive h' _).symm

/-- Two searches, the second of which is answered and completed after the first or before it. -/
theorem run_receive_addressed_twoSearches :
    let s := (withTags 'A').run
      [.issue ⟨.everything, [.all], .search⟩, .issue ⟨.everything, [.all], .uidSearch⟩]
    let refusal := utf8 "A0000 NO not now\r\n"
    let result := utf8 "* ESEARCH (TAG \"A0001\") UID ALL 3:4\r\n"
    let success := utf8 "A0001 OK done\r\n"
    ∀ id, (s.run ([refusal, result, success].map .receive)).inFlight.outcomes id
      = (s.run ([result, success, refusal].map .receive)).inFlight.outcomes id := by
  intro s refusal result success
  have hrefusal : addressee? refusal = some ⟨"A0000"⟩ := by decide +kernel
  have hresult : addressee? result = some ⟨"A0001"⟩ := by decide +kernel
  have hsuccess : addressee? success = some ⟨"A0001"⟩ := by decide +kernel
  have hbefore : ∀ input ∈ [refusal, result, success], (addressee? input).isSome := by
    simp [hrefusal, hresult, hsuccess]
  have hafter : ∀ input ∈ [result, success, refusal], (addressee? input).isSome := by
    simp [hrefusal, hresult, hsuccess]
  have horder : SameOrder addressee? [refusal, result, success] [result, success, refusal] := by
    intro tag
    by_cases hfirst : (⟨"A0000"⟩ : Tag) = tag
    · subst hfirst
      simp [hrefusal, hresult, hsuccess]
    · simp [List.filter_cons, hrefusal, hresult, hsuccess, hfirst]
  exact (run_receive_addressed 'A' _ hbefore hafter horder).1

end Session

end ImapSearch
