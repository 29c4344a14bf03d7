import ImapSearch.Proofs.Session.LiteralGate

/-!
# ImapSearch.Proofs.Session.Closed

**Sessions whose connection has ended.** Only the event that says so ends the connection of a
session, and nothing undoes it (`Session.isClosed_run`). As long as every caller waits, each
search that was issued is in flight or has one outcome (`Session.conserved_run`), and none is in
flight after the end. A search that is issued then fails at once, with the reason for which it is
refused or else with the loss of the connection (`Session.outcomes_issue_of_isClosed`).
-/

namespace ImapSearch

namespace InFlight

/-- A search to which an operation gives its number and a failure has failed with that. -/
theorem Conserved.outcomes_step {s : InFlight} (h : s.Conserved) {op : Op} {error : Error}
    (hsends : s.sends op = [(s.registered, .error error)]) :
    (s.step op).outcomes s.registered = [.error error] := by
  have hnew : s.outcomes s.registered = [] := by
    have hcount := h.count s.registered
    rw [if_neg (Nat.lt_irrefl _)] at hcount
    rw [← List.length_eq_zero_iff]
    omega
  rw [outcomes] at hnew ⊢
  rw [step_eq, hsends, h.nobody, List.filter_append, List.map_append, hnew]
  simp

/-- An ended connection does not end once more. -/
theorem close_of_closed {s : InFlight} (hclosed : s.closed) (hdrained : s.Drained) :
    s.close = s := by
  have hempty := hdrained hclosed
  obtain ⟨entries, closed, registered, delivered, abandoned⟩ := s
  obtain rfl : closed = true := hclosed
  obtain rfl : entries = [] := hempty
  rfl

end InFlight

namespace Session

/-! ### Kinds of events -/

/-- Whether a search is issued. -/
def Event.isIssue : Event → Bool
  | .issue _ => true
  | _ => false

/-- Whether the connection ends. -/
def Event.isClose : Event → Bool
  | .close => true
  | _ => false

/-- Whether a caller no longer waits. -/
def Event.isAbandon : Event → Bool
  | .abandon _ => true
  | _ => false

/-- What an event does to the searches in flight is of its own kind. -/
theorem kinds_op? {s : Session} {event : Event} {op : InFlight.Op} (h : s.op? event = some op) :
    op.registers = event.isIssue.toNat ∧ op.isClose = event.isClose ∧
      op.isAbandon = event.isAbandon := by
  cases event with
  | issue command =>
    rw [op?] at h
    split at h
    all_goals cases h
    all_goals exact ⟨rfl, rfl, rfl⟩
  | receive input =>
    obtain ⟨r, -, hr⟩ := of_op?_receive h
    obtain ⟨_, _, _, -, rfl⟩ | ⟨_, -, rfl⟩ | ⟨_, _, -, rfl⟩ | ⟨_, -, rfl⟩ := Response.of_op? hr
    all_goals exact ⟨rfl, rfl, rfl⟩
  | close =>
    cases h
    exact ⟨rfl, rfl, rfl⟩
  | abandon id =>
    cases h
    exact ⟨rfl, rfl, rfl⟩

theorem op?_eq_none {s : Session} {event : Event} (h : s.op? event = none) :
    event.isIssue.toNat = 0 ∧ ¬ event.isClose := by
  cases event with
  | issue command =>
    rw [op?] at h
    split at h
    all_goals cases h
  | receive input => exact ⟨rfl, Bool.false_ne_true⟩
  | close => cases h
  | abandon id => cases h

/-! ### Runs -/

theorem isClosed_step (s : Session) (event : Event) :
    (s.step event).isClosed = (s.isClosed || event.isClose) := by
  rw [isClosed, inFlight_step]
  cases hop : s.op? event with
  | none =>
    rw [eq_false_of_ne_true (op?_eq_none hop).2]
    exact (Bool.or_false _).symm
  | some op =>
    rw [Option.toList_some, InFlight.run_cons, InFlight.run_nil, InFlight.step_eq,
      ← (kinds_op? hop).2.1]
    rfl

theorem registered_step (s : Session) (event : Event) : (s.step event).inFlight.registered =
    s.inFlight.registered + event.isIssue.toNat := by
  rw [inFlight_step]
  cases hop : s.op? event with
  | none =>
    rw [(op?_eq_none hop).1]
    rfl
  | some op =>
    rw [Option.toList_some, InFlight.run_cons, InFlight.run_nil, InFlight.step_eq,
      ← (kinds_op? hop).1]

/-- The connection has ended if and only if something ended it. -/
theorem isClosed_run (s : Session) (events : List Event) :
    (s.run events).isClosed = (s.isClosed || events.any Event.isClose) := by
  induction events generalizing s with
  | nil => exact (Bool.or_false _).symm
  | cons event events ih => rw [run_cons, ih, isClosed_step, List.any_cons, Bool.or_assoc]

/-- Searches are numbered in the order in which they are issued, refused ones included. -/
theorem registered_run (s : Session) (events : List Event) : (s.run events).inFlight.registered =
    s.inFlight.registered + events.countP Event.isIssue := by
  induction events generalizing s with
  | nil => rfl
  | cons event events ih =>
    rw [run_cons, ih, registered_step, List.countP_cons, Nat.add_assoc, Nat.add_comm _ (ite _ _ _)]
    cases event.isIssue <;> rfl

theorem conserved_run {s : Session} (h : s.inFlight.Conserved) {events : List Event}
    (hevents : ∀ event ∈ events, ¬ event.isAbandon) : (s.run events).inFlight.Conserved := by
  induction events generalizing s with
  | nil => exact h
  | cons event events ih =>
    rw [List.forall_mem_cons] at hevents
    refine ih ?_ hevents.2
    rw [inFlight_step]
    refine h.run fun op hop => ?_
    rw [(kinds_op? (Option.mem_toList.mp hop)).2.2]
    exact hevents.1

theorem drained_run {s : Session} (h : s.inFlight.Drained) (events : List Event) :
    (s.run events).inFlight.Drained := by
  obtain ⟨ops, hops⟩ := s.exists_inFlight_run events
  rw [hops]
  exact h.run ops

/-! ### After the end -/

theorem close_of_isClosed {s : Session} (hclosed : s.isClosed) (hdrained : s.inFlight.Drained) :
    s.close = s := by
  rw [close, InFlight.close_of_closed hclosed hdrained]

/-- After the end a search fails at once: for the literal for which it is refused, or because the
connection is lost. -/
theorem outcomes_issue_of_isClosed {s : Session} (hclosed : s.isClosed)
    (hconserved : s.inFlight.Conserved) (command : Command) :
    (s.issue command).1.inFlight.outcomes s.inFlight.registered =
      [.error ((s.refusedLiteral? command).elim .connectionLost .literalRefused)] := by
  cases hcheck : s.refusedLiteral? command with
  | some size =>
    rw [issue_of_refused hcheck]
    exact hconserved.outcomes_step rfl
  | none =>
    rw [issue_of_accepted hcheck]
    exact hconserved.outcomes_step (if_pos hclosed)

end Session

end ImapSearch
