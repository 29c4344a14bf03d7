import ImapSearch.Proofs.InFlight.Run
import ImapSearch.Session

/-!
# ImapSearch.Proofs.Session.Run

**Runs of a session.** An `Event` is something that can happen to a session, and a
run is any sequence of events. An event does one thing to the searches in flight,
or nothing at all (`inFlight_step`): a search that is issued is registered or
refused, and what a response does is told by its kind (`Response.op?`). So every
point of a run of a session is a point of a run of the searches in flight
(`exists_inFlight_run`), and what holds of those holds of the session.
-/

namespace ImapSearch

/-- What a response does to the searches in flight, if anything. -/
def Response.op? : Response → Option InFlight.Op
  | .tagged tag status text => some (.complete tag status text)
  | .untagged (.search nums) => some (.accumulate nums)
  | .untagged (.extendedSearch tag data) => some (.replace (correlator? tag) data)
  | .untagged (.remark .bye text) => some (.failAll (.bye text))
  | .untagged _ | .continuation _ => none

/-- What a response does is told by its kind. -/
theorem Response.of_op? {r : Response} {op : InFlight.Op} (h : r.op? = some op) :
    (∃ tag status text, r = .tagged tag status text ∧ op = .complete tag status text) ∨
    (∃ nums, r = .untagged (.search nums) ∧ op = .accumulate nums) ∨
    (∃ tag data, r = .untagged (.extendedSearch tag data) ∧ op = .replace (correlator? tag) data) ∨
    ∃ text, r = .untagged (.remark .bye text) ∧ op = .failAll (.bye text) := by
  unfold op? at h
  split at h
  · cases h
    exact .inl ⟨_, _, _, rfl, rfl⟩
  · cases h
    exact .inr (.inl ⟨_, rfl, rfl⟩)
  · cases h
    exact .inr (.inr (.inl ⟨_, _, rfl, rfl⟩))
  · cases h
    exact .inr (.inr (.inr ⟨_, rfl, rfl⟩))
  · cases h
  · cases h

namespace Session

/-! ### Events -/

/-- What can happen to a session. -/
inductive Event
  /-- A search is issued. -/
  | issue (command : Command)
  /-- One complete response arrives. -/
  | receive (input : Bytes)
  | close
  /-- A caller no longer waits for a search. -/
  | abandon (id : Nat)

/-- One event. Only a search that was registered has a caller who can abandon it. -/
def step (s : Session) : Event → Session
  | .issue command => (s.issue command).1
  | .receive input => (s.receive input).1
  | .close => s.close
  | .abandon id => if id < s.inFlight.registered then s.abandon id else s

/-- Events one after the other. -/
def run (s : Session) (events : List Event) : Session := events.foldl step s

@[simp] theorem run_nil (s : Session) : s.run [] = s := rfl

@[simp] theorem run_cons (s : Session) (event : Event) (events : List Event) :
    s.run (event :: events) = (s.step event).run events := rfl

theorem run_append (s : Session) (events more : List Event) :
    s.run (events ++ more) = (s.run events).run more :=
  List.foldl_append

/-! ### Responses -/

theorem receive_of_ok {s : Session} {input : Bytes} {r : Response}
    (h : Response.parse input = .ok r) : (s.receive input).1 = s.apply r := by
  rw [receive, h]

theorem receive_of_error {s : Session} {input : Bytes} {e : Error}
    (h : Response.parse input = .error e) : (s.receive input).1 = s := by
  rw [receive, h]

theorem inFlight_apply (s : Session) (r : Response) :
    (s.apply r).inFlight = s.inFlight.run r.op?.toList := by
  cases r with
  | tagged tag status text => rfl
  | continuation text => rfl
  | untagged data =>
    cases data with
    | remark status text => cases status <;> rfl
    | _ => rfl

/-- A response gives out no tag. -/
theorem tags_apply (s : Session) (r : Response) : (s.apply r).tags = s.tags := by
  cases r with
  | tagged tag status text => rfl
  | continuation text => rfl
  | untagged data =>
    cases data with
    | remark status text => cases status <;> rfl
    | _ => rfl

/-! ### What an event does to the searches in flight -/

/-- What an event does to the searches in flight, if anything. -/
def op? (s : Session) : Event → Option InFlight.Op
  | .issue command =>
    match s.refusedLiteral? command with
    | some size => some (.refuse (.literalRefused size))
    | none => some (.register s.tags.tag command.kind)
  | .receive input => (Response.parse input).toOption.bind Response.op?
  | .close => some .close
  | .abandon id => some (.abandon id)

theorem of_op?_receive {s : Session} {input : Bytes} {op : InFlight.Op}
    (h : s.op? (.receive input) = some op) :
    ∃ r, Response.parse input = .ok r ∧ r.op? = some op := by
  rw [op?] at h
  cases hparse : Response.parse input with
  | error e =>
    rw [hparse] at h
    cases h
  | ok r =>
    rw [hparse] at h
    exact ⟨r, rfl, h⟩

theorem inFlight_step (s : Session) (event : Event) :
    (s.step event).inFlight = s.inFlight.run (s.op? event).toList := by
  cases event with
  | issue command =>
    simp only [step, issue, op?]
    cases s.refusedLiteral? command <;> rfl
  | receive input =>
    simp only [step, receive, op?]
    cases Response.parse input with
    | error e => rfl
    | ok r => exact s.inFlight_apply r
  | close => rfl
  | abandon id =>
    simp only [step, op?, Option.toList_some, InFlight.run_cons, InFlight.run_nil, InFlight.step]
    split <;> rfl

/-- What a run does to the searches in flight is a run of theirs. -/
theorem exists_inFlight_run (s : Session) (events : List Event) :
    ∃ ops, (s.run events).inFlight = s.inFlight.run ops := by
  induction events generalizing s with
  | nil => exact ⟨[], rfl⟩
  | cons event events ih =>
    obtain ⟨ops, h⟩ := ih (s.step event)
    refine ⟨(s.op? event).toList ++ ops, ?_⟩
    rw [run_cons, h, inFlight_step, InFlight.run_append]

end Session

end ImapSearch
