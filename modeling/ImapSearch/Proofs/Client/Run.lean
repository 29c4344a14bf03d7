import ImapSearch.Client
import ImapSearch.Proofs.Session.Closed

/-!
# ImapSearch.Proofs.Client.Run

**Runs of a client.** An `Event` is something that the user of a client or the server does, and a
run is any sequence of events; the client reads and writes what it can before the next one. What
happens to the session meanwhile is a run of the session (`Client.session_run`): a search is
issued, every response is received that is complete by then, and the session is closed where
reading or writing fails. It is not where the reader breaks down.
-/

namespace ImapSearch.Client

/-! ### Events -/

/-- What can happen to a client. -/
inductive Event
  /-- Its user issues a search. -/
  | search (command : Command)
  /-- The server sends bytes. -/
  | receive (bytes : Bytes)
  /-- The server ends what it sends. -/
  | shutdown
  /-- The server goes away. -/
  | hangUp
  /-- Its user closes it. -/
  | close
  /-- Its user lets go of it. -/
  | drop

/-- One event. A client that its user lets go of is closed. -/
def step (c : Client) : Event → Client
  | .search command => (c.search command).1
  | .receive bytes => c.receive bytes
  | .shutdown => c.shutdown
  | .hangUp => c.hangUp
  | .close | .drop => c.close

/-- Events one after the other. -/
def run (c : Client) (events : List Event) : Client := events.foldl step c

@[simp] theorem run_nil (c : Client) : c.run [] = c := rfl

@[simp] theorem run_cons (c : Client) (event : Event) (events : List Event) :
    c.run (event :: events) = (c.step event).run events := rfl

theorem run_append (c : Client) (events more : List Event) :
    c.run (events ++ more) = (c.run events).run more :=
  List.foldl_append

/-! ### What reading and writing do -/

/-- What can be read by now. -/
def drained (c : Client) : Framing.Drained := Framing.drain c.settings c.source

/-- What reading does to the session. -/
def readEvents (c : Client) : List Session.Event :=
  if c.reading then
    c.drained.responses.map .receive ++ if c.drained.error.isSome then [.close] else []
  else []

theorem pump_eq (c : Client) : c.pump = { c with
    session := c.session.run c.readEvents
    source := if c.reading then c.drained.rest else c.source
    reading := c.reading && c.drained.stop.isWaiting } := by
  obtain ⟨settings, session, source, reading, writing, serverSends, serverTakes⟩ := c
  cases reading with
  | false => rfl
  | true =>
    have hresponses : ∀ responses : List Bytes, session.run (responses.map .receive) =
        responses.foldl (fun s response => (s.receive response).1) session := by
      intro responses
      rw [Session.run, List.foldl_map]
      rfl
    rw [pump, readEvents, if_pos rfl, if_pos rfl, Session.run_append, hresponses, drained]
    dsimp only
    obtain ⟨responses, stop, rest⟩ := Framing.drain settings source
    cases stop <;> rfl

/-- Whether a search that is issued now fails to be written. -/
def failsToWrite (c : Client) (command : Command) : Bool :=
  (c.session.issue command).2.sent.isSome && c.writing && !c.serverTakes

/-- A server that takes bytes is written to. -/
theorem failsToWrite_eq_false {c : Client} (h : c.serverTakes) (command : Command) :
    c.failsToWrite command = false := by
  rw [failsToWrite, h]
  exact Bool.and_false _

theorem failsToWrite_iff {c : Client} (command : Command) : c.failsToWrite command ↔
    c.session.refusedLiteral? command = none ∧ c.writing ∧ ¬ c.serverTakes := by
  rw [failsToWrite]
  cases hcheck : c.session.refusedLiteral? command with
  | none => simp [Session.issue_of_accepted hcheck]
  | some size => simp [Session.issue_of_refused hcheck]

theorem fst_write (c : Client) (bytes : Bytes) : (c.write bytes).1 =
    if c.writing && !c.serverTakes then { c with session := c.session.close, writing := false }
    else c := by
  rw [write]
  cases c.writing <;> cases c.serverTakes <;> rfl

theorem search_eq (c : Client) (command : Command) : (c.search command).1 = { c with
    session := c.session.run (.issue command :: if c.failsToWrite command then [.close] else [])
    writing := c.writing && !c.failsToWrite command } := by
  rcases hissue : c.session.issue command with ⟨session, tag, sent⟩
  have hsession : c.session.step (.issue command) = session := congrArg Prod.fst hissue
  rw [failsToWrite, search, hissue, Session.run_cons, hsession]
  cases sent with
  | none => cases hwriting : c.writing <;> rfl
  | some bytes =>
    dsimp only
    rw [fst_write]
    cases c.writing <;> cases c.serverTakes <;> rfl

/-! ### What an event does to the session -/

/-- What an event does to the session. -/
def sessionEvents (c : Client) : Event → List Session.Event
  | .search command => .issue command :: if c.failsToWrite command then [.close] else []
  | .receive bytes =>
    if c.isReachable then { c with source := c.source.push bytes }.readEvents else []
  | .shutdown | .hangUp => { c with source := c.source.finish }.readEvents
  | .close | .drop => [.close]

theorem session_step (c : Client) (event : Event) :
    (c.step event).session = c.session.run (c.sessionEvents event) := by
  cases event with
  | search command => rw [step, search_eq, sessionEvents]
  | receive bytes =>
    rw [step, receive, sessionEvents]
    split
    · rw [pump_eq]
    · rfl
  | shutdown =>
    rw [step, shutdown, pump_eq]
    rfl
  | hangUp =>
    rw [step, hangUp, pump_eq]
    rfl
  | close => rfl
  | drop => rfl

/-- What events do to the session. -/
def history (c : Client) : List Event → List Session.Event
  | [] => []
  | event :: events => c.sessionEvents event ++ (c.step event).history events

theorem session_run (c : Client) (events : List Event) :
    (c.run events).session = c.session.run (c.history events) := by
  induction events generalizing c with
  | nil => rfl
  | cons event events ih =>
    rw [run_cons, ih, session_step, history, Session.run_append]

/-! ### The searches of a run -/

/-- Whether a search is issued. -/
def Event.isSearch : Event → Bool
  | .search _ => true
  | _ => false

/-- What a client does to its session by itself: it receives responses, and closes the session. -/
def IsOwn (event : Session.Event) : Prop := ¬ event.isIssue ∧ ¬ event.isAbandon

theorem isOwn_receive (input : Bytes) : IsOwn (.receive input) :=
  ⟨Bool.false_ne_true, Bool.false_ne_true⟩

theorem isOwn_close : IsOwn .close := ⟨Bool.false_ne_true, Bool.false_ne_true⟩

theorem isOwn_of_mem_readEvents {c : Client} : ∀ event ∈ c.readEvents, IsOwn event := by
  intro event h
  rw [readEvents] at h
  split at h
  · rcases List.mem_append.mp h with hresponse | hclose
    · obtain ⟨response, -, rfl⟩ := List.mem_map.mp hresponse
      exact isOwn_receive response
    · split at hclose
      · rw [List.mem_singleton.mp hclose]
        exact isOwn_close
      · cases hclose
  · cases h

/-- An event issues its search, if it has one, and the rest is done by the client itself. -/
theorem sessionEvents_eq (c : Client) (event : Event) : ∃ issued own,
    c.sessionEvents event = issued ++ own ∧ issued.length = event.isSearch.toNat ∧
      (∀ e ∈ issued, e.isIssue ∧ ¬ e.isAbandon) ∧ ∀ e ∈ own, IsOwn e := by
  cases event with
  | search command =>
    refine ⟨[.issue command], if c.failsToWrite command then [.close] else [], rfl, rfl,
      by simp [Session.Event.isIssue, Session.Event.isAbandon], fun e he => ?_⟩
    split at he
    · rw [List.mem_singleton.mp he]
      exact isOwn_close
    · cases he
  | receive bytes =>
    refine ⟨[], c.sessionEvents (.receive bytes), rfl, rfl, by simp, fun e he => ?_⟩
    rw [sessionEvents] at he
    split at he
    · exact isOwn_of_mem_readEvents e he
    · cases he
  | shutdown | hangUp => exact ⟨[], _, rfl, rfl, by simp, isOwn_of_mem_readEvents⟩
  | close | drop => exact ⟨[], _, rfl, rfl, by simp, List.forall_mem_singleton.mpr isOwn_close⟩

/-- The history issues one search for each search of the user, and takes no caller away. -/
theorem history_kinds (c : Client) (events : List Event) :
    (c.history events).countP Session.Event.isIssue = events.countP Event.isSearch ∧
      ∀ e ∈ c.history events, ¬ e.isAbandon := by
  induction events generalizing c with
  | nil => exact ⟨rfl, by simp [history]⟩
  | cons event events ih =>
    obtain ⟨issued, own, hevents, hlength, hissued, hown⟩ := c.sessionEvents_eq event
    obtain ⟨hcount, hwaits⟩ := ih (c.step event)
    have hissues : issued.countP Session.Event.isIssue = event.isSearch.toNat :=
      (List.countP_eq_length.mpr fun e he => (hissued e he).1).trans hlength
    have hothers : own.countP Session.Event.isIssue = 0 :=
      List.countP_eq_zero.mpr fun e he => (hown e he).1
    rw [history, hevents]
    constructor
    · rw [List.countP_append, List.countP_append, hissues, hothers, hcount, List.countP_cons,
        Nat.add_zero, Nat.add_comm]
      cases event.isSearch <;> rfl
    · exact List.forall_mem_append.mpr ⟨List.forall_mem_append.mpr
        ⟨fun e he => (hissued e he).2, fun e he => (hown e he).2⟩, hwaits⟩

/-- Every search that was issued so far is in flight or has one outcome, and after the end none is
in flight. -/
theorem conserved_run (settings : Settings) (events : List Event) :
    ((connect settings).run events).session.inFlight.Conserved ∧
      ((connect settings).run events).session.inFlight.Drained := by
  rw [session_run]
  exact ⟨Session.conserved_run InFlight.conserved_empty (history_kinds _ events).2,
    Session.drained_run (fun _ => rfl) _⟩

theorem registered_run (settings : Settings) (events : List Event) :
    ((connect settings).run events).session.inFlight.registered =
      events.countP Event.isSearch := by
  rw [session_run, Session.registered_run, (history_kinds _ events).1]
  exact Nat.zero_add _

end ImapSearch.Client
