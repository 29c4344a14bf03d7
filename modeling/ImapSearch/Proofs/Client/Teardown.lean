import Mathlib.Data.List.TakeWhile
import ImapSearch.Proofs.Client.Run
import ImapSearch.Proofs.Framing.Later

/-!
# ImapSearch.Proofs.Client.Teardown

**Who waits for a connection that has ended.** As long as nobody has ended the connection, the
client has read what can be read of the bytes that were sent to it (`Client.Reads`). If that
failed, at a line or a literal above its limit, it has closed its session; if not, any event that
ends the connection closes it. So nobody waits for a connection that has ended.

This is not so where the reader breaks down (`Client.Crashes`): where the server announces a
literal that is within the limit and too large for a buffer. The client stops reading then and
leaves its session open, and it does not see any more that the server has ended what it sends
(`Client.BrokenDown`). Only its user closes the session, or a search that fails to be written.

`Client.isClosed_resolves` says in both cases which runs end with a closed session, and that every
search has its outcome then, those that are issued later too.
-/

namespace ImapSearch.Client

/-! ### What ends a session -/

/-- Whether the event ends the connection, from one side or from both. -/
def Event.isTeardown : Event → Bool
  | .shutdown | .hangUp | .close | .drop => true
  | .search _ | .receive _ => false

theorem isClosed_step (c : Client) (event : Event) : (c.step event).isClosed =
    (c.isClosed || (c.sessionEvents event).any Session.Event.isClose) := by
  rw [isClosed, session_step, Session.isClosed_run]
  rfl

theorem isClosed_run_of_isClosed {c : Client} (h : c.isClosed) (events : List Event) :
    (c.run events).isClosed := by
  rw [isClosed, session_run, Session.isClosed_run, show c.session.isClosed = true from h]
  rfl

theorem isClosed_pump (c : Client) :
    c.pump.isClosed = (c.isClosed || c.reading && c.drained.error.isSome) := by
  have hresponses : (c.drained.responses.map Session.Event.receive).any Session.Event.isClose
      = false := by
    simp [Session.Event.isClose]
  rw [pump_eq, isClosed, Session.isClosed_run, readEvents]
  cases c.reading with
  | false => rfl
  | true =>
    rw [if_pos rfl, List.any_append, hresponses]
    cases c.drained.error <;> rfl

theorem pump_of_not_reading {c : Client} (h : c.reading = false) : c.pump = c := by
  rw [pump, h]
  rfl

/-! ### What the server sends -/

/-- The bytes that the server sends. -/
def Event.piece? : Event → Option Bytes
  | .receive bytes => some bytes
  | _ => none

/-- The pieces that the server sends before the connection ends. -/
def pieces (events : List Event) : List Bytes :=
  (events.takeWhile fun event => !event.isTeardown).filterMap Event.piece?

/-- The bytes that the server sends before the connection ends. -/
def sent (events : List Event) : Bytes := (pieces events).flatten

/-- What can be read of them. -/
def readable (settings : Settings) (events : List Event) : Framing.Drained :=
  Framing.drain settings { chunks := pieces events }

/-- The reader breaks down before the connection ends. -/
def Crashes (settings : Settings) (events : List Event) : Prop :=
  (readable settings events).stop = .crashed

instance (settings : Settings) (events : List Event) : Decidable (Crashes settings events) :=
  inferInstanceAs (Decidable (_ = _))

theorem pieces_of_stands {events : List Event} (h : ∀ event ∈ events, ¬ event.isTeardown) :
    pieces events = events.filterMap Event.piece? := by
  rw [pieces, List.takeWhile_eq_self_iff.mpr]
  simpa using h

/-- Up to the first event that ends the connection the server sends the same. -/
theorem exists_front (events : List Event) : ∃ front after, events = front ++ after ∧
    (∀ event ∈ front, ¬ event.isTeardown) ∧ (∀ event ∈ after.head?, event.isTeardown) ∧
      pieces front = pieces events := by
  let stands := fun event : Event => !event.isTeardown
  have hfront : ∀ event ∈ events.takeWhile stands, ¬ event.isTeardown := by
    intro event hmem
    simpa [stands] using List.mem_takeWhile_imp hmem
  refine ⟨events.takeWhile stands, events.dropWhile stands, List.takeWhile_append_dropWhile.symm,
    hfront, fun event hmem => ?_, pieces_of_stands hfront⟩
  have hfirst := List.head?_dropWhile_not stands events
  rw [Option.mem_def.mp hmem] at hfirst
  simpa [stands] using hfirst

/-! ### A client whose connection stands -/

/-- Nobody has ended the connection, and the client has read what can be read of the bytes that were
sent to it. It has stopped if that failed or its reader broke down, and closed its session if and
only if that failed. -/
structure Reads (settings : Settings) (d : Framing.Drained) (c : Client) : Prop where
  limits : c.settings = settings
  serverSends : c.serverSends
  serverTakes : c.serverTakes
  writing : c.writing
  reading : c.reading = d.stop.isWaiting
  source : c.reading → c.source = d.rest
  isClosed : c.isClosed = d.error.isSome

section Reads

variable {settings : Settings} {d : Framing.Drained} {c : Client}

theorem reads_connect : Reads settings (readable settings []) (connect settings) := by
  have hnothing : readable settings [] = ⟨[], .waiting, {}⟩ := Framing.drain_empty
  rw [hnothing]
  exact ⟨rfl, rfl, rfl, rfl, rfl, fun _ => rfl, rfl⟩

theorem Reads.search (h : Reads settings d c) (command : Command) :
    Reads settings d (c.search command).1 := by
  rw [search_eq, failsToWrite_eq_false h.serverTakes]
  refine ⟨h.limits, h.serverSends, h.serverTakes, ?_, h.reading, h.source, ?_⟩
  · rw [h.writing]
    rfl
  · show (c.session.run [.issue command]).isClosed = d.error.isSome
    rw [Session.isClosed_run]
    exact (Bool.or_false _).trans h.isClosed

/-- A client that goes on reading has read what can be read. -/
theorem reads_pump (hlimits : c.settings = settings) (hsends : c.serverSends)
    (htakes : c.serverTakes) (hwriting : c.writing) (hreading : c.reading)
    (hopen : c.isClosed = false) (responses : List Bytes) :
    Reads settings { c.drained with responses } c.pump := by
  have hclosed : c.pump.isClosed = c.drained.error.isSome := by
    rw [isClosed_pump, hopen, hreading]
    rfl
  rw [pump_eq] at hclosed ⊢
  refine ⟨hlimits, hsends, htakes, hwriting, ?_, fun _ => if_pos hreading, hclosed⟩
  show (c.reading && c.drained.stop.isWaiting) = c.drained.stop.isWaiting
  rw [hreading]
  rfl

/-- One more piece is read together with what was left in front of it. -/
theorem Reads.receive (h : Reads settings d c) (bytes : Bytes) :
    Reads settings (d.later settings [bytes] false) (c.receive bytes) := by
  have hreachable : c.isReachable := by
    rw [isReachable, h.serverSends, h.writing]
    exact Bool.or_true _
  rw [Client.receive, if_pos hreachable]
  obtain ⟨responses, stop, rest⟩ := d
  cases stop with
  | waiting =>
    have hreading : c.reading = true := h.reading
    have hread : drained { c with source := c.source.push bytes } =
        Framing.drain settings (rest.later [bytes] false) := by
      rw [drained, h.limits, h.source hreading, ByteSource.later_push]
    show Reads settings { Framing.drain settings (rest.later [bytes] false) with responses := _ } _
    rw [← hread]
    exact reads_pump (c := { c with source := c.source.push bytes }) h.limits h.serverSends
      h.serverTakes h.writing hreading h.isClosed _
  | failed | crashed =>
    have hreading : c.reading = false := h.reading
    have hstays := pump_of_not_reading (c := { c with source := c.source.push bytes }) hreading
    rw [hstays]
    refine ⟨h.limits, h.serverSends, h.serverTakes, h.writing, hreading, ?_, h.isClosed⟩
    intro hreads
    rw [hreading] at hreads
    cases hreads

theorem Reads.run {events : List Event} (h : Reads settings (readable settings []) c)
    (hevents : ∀ event ∈ events, ¬ event.isTeardown) :
    Reads settings (readable settings events) (c.run events) := by
  rw [readable, pieces_of_stands hevents]
  -- The pieces that come last are read last, so that the induction is on the front.
  induction events using List.reverseRecOn with
  | nil => exact h
  | append_singleton events event ih =>
    rw [List.forall_mem_append] at hevents
    have hreads := ih hevents.1
    rw [run_append, List.filterMap_append]
    cases event with
    | search command =>
      show Reads settings (Framing.drain settings { chunks := _ ++ [] }) _
      rw [List.append_nil]
      exact hreads.search command
    | receive bytes =>
      have hreceived := hreads.receive bytes
      rw [← Framing.drain_later Bool.false_ne_true] at hreceived
      exact hreceived
    | shutdown | hangUp | close | drop =>
      have hstands := List.forall_mem_singleton.mp hevents.2
      exact absurd rfl hstands

/-- A client that waits for more sees that the connection has ended. -/
theorem Reads.isClosed_teardown {s : ByteSource} (h : Reads settings (Framing.drain settings s) c)
    (hstop : (Framing.drain settings s).stop = .waiting) {event : Event}
    (hevent : event.isTeardown) : (c.step event).isClosed := by
  have hreading : c.reading := by
    rw [h.reading, hstop]
    rfl
  obtain ⟨e, rest, hfails⟩ := Framing.drain_finish hstop
  have hends : ∀ c' : Client, c'.settings = settings → c'.reading → c'.source = c.source.finish →
      c'.pump.isClosed := by
    rintro c' hlimits hreads hsource
    rw [isClosed_pump, hreads, drained, hlimits, hsource, h.source hreading, hfails]
    exact Bool.or_true _
  cases event with
  | search command | receive bytes => cases hevent
  | shutdown | hangUp => exact hends _ h.limits hreading rfl
  | close | drop =>
    rw [isClosed_step]
    exact Bool.or_true _

end Reads

/-! ### A client whose reader broke down -/

/-- A search that is not refused is issued after the server has gone away. -/
def WritesInVain (settings : Settings) (events : List Event) : Prop :=
  ∃ before command after, events = before ++ .search command :: after ∧ .hangUp ∈ before ∧
    ((connect settings).run before).session.refusedLiteral? command = none

theorem writesInVain_append_singleton {settings : Settings} {events : List Event} {event : Event} :
    WritesInVain settings (events ++ [event]) ↔ WritesInVain settings events ∨
      ∃ command, event = .search command ∧ .hangUp ∈ events ∧
        ((connect settings).run events).session.refusedLiteral? command = none := by
  constructor
  · rintro ⟨before, command, after, hevents, hgone, haccepted⟩
    rcases List.eq_nil_or_concat' after with rfl | ⟨after, last, rfl⟩
    · obtain ⟨rfl, hlast⟩ := List.append_inj' hevents rfl
      exact .inr ⟨command, List.singleton_inj.mp hlast, hgone, haccepted⟩
    · rw [← List.cons_append, ← List.append_assoc] at hevents
      obtain ⟨rfl, -⟩ := List.append_inj' hevents rfl
      exact .inl ⟨before, command, after, rfl, hgone, haccepted⟩
  · rintro (⟨before, command, after, rfl, hafter⟩ | ⟨command, rfl, hafter⟩)
    · exact ⟨before, command, after ++ [event], List.append_assoc _ _ _, hafter⟩
    · exact ⟨events, command, [], rfl, hafter⟩

/-- The client does not read any more, and has not been told. It writes until the session is closed:
by its user, or because a search fails to be written. -/
structure BrokenDown (settings : Settings) (events : List Event) (c : Client) : Prop where
  run : c = (connect settings).run events
  reading : c.reading = false
  writing : c.writing = !c.isClosed
  serverTakes : c.serverTakes ↔ .hangUp ∉ events
  isClosed : c.isClosed ↔ .close ∈ events ∨ .drop ∈ events ∨ WritesInVain settings events

section BrokenDown

variable {settings : Settings} {events : List Event} {c : Client}

/-- A reader that breaks down leaves the session as it is. -/
theorem Reads.brokenDown (h : Reads settings (readable settings events) c)
    (hcrash : Crashes settings events) (hrun : c = (connect settings).run events)
    (hevents : ∀ event ∈ events, ¬ event.isTeardown) : BrokenDown settings events c := by
  have habsent : ∀ event : Event, event.isTeardown → event ∉ events :=
    fun event hevent hmem => hevents event hmem hevent
  have hopen : c.isClosed = false := by
    rw [h.isClosed, Framing.Drained.error, show _ = Framing.Stop.crashed from hcrash]
    rfl
  refine ⟨hrun, ?_, ?_, iff_of_true h.serverTakes (habsent .hangUp rfl), ?_⟩
  · rw [h.reading, show _ = Framing.Stop.crashed from hcrash]
    rfl
  · rw [h.writing, hopen]
    rfl
  · rw [hopen]
    refine iff_of_false Bool.false_ne_true ?_
    rintro (hclose | hdrop | ⟨before, command, after, rfl, hgone, -⟩)
    · exact habsent .close rfl hclose
    · exact habsent .drop rfl hdrop
    · exact habsent .hangUp rfl (List.mem_append_left _ hgone)

/-- What the server does has no effect on such a client, but for the writes that fail. -/
theorem BrokenDown.server (h : BrokenDown settings events c) {event : Event} {c' : Client}
    (hrun : c' = (connect settings).run (events ++ [event])) (hreading : c'.reading = false)
    (hsession : c'.session = c.session) (hwriting : c'.writing = c.writing)
    (htakes : c'.serverTakes ↔ .hangUp ∉ events ++ [event]) (hclose : .close ≠ event)
    (hdrop : .drop ≠ event) (hsearch : ∀ command, event ≠ .search command) :
    BrokenDown settings (events ++ [event]) c' := by
  have hclosed : c'.isClosed = c.isClosed := congrArg Session.isClosed hsession
  refine ⟨hrun, hreading, by rw [hwriting, hclosed, h.writing], htakes, ?_⟩
  rw [hclosed, h.isClosed, writesInVain_append_singleton]
  simp [hclose, hdrop, hsearch]

theorem BrokenDown.step (h : BrokenDown settings events c) (event : Event) :
    BrokenDown settings (events ++ [event]) (c.step event) := by
  have hrun : c.step event = (connect settings).run (events ++ [event]) := by
    rw [Client.run_append, ← h.run]
    rfl
  cases event with
  | search command =>
    have hclosed : (c.step (.search command)).isClosed =
        (c.isClosed || c.failsToWrite command) := by
      rw [isClosed_step, sessionEvents]
      cases c.failsToWrite command <;> rfl
    have hnext : c.step (.search command) = _ := search_eq c command
    refine ⟨hrun, ?_, ?_, ?_, ?_⟩
    · rw [hnext]
      exact h.reading
    · rw [hclosed, Bool.not_or, ← h.writing, hnext]
    · rw [hnext]
      simpa using h.serverTakes
    · have hvain : (c.isClosed || c.failsToWrite command) ↔ c.isClosed ∨ .hangUp ∈ events ∧
          c.session.refusedLiteral? command = none := by
        rw [Bool.or_eq_true, failsToWrite_iff, h.writing, h.serverTakes]
        cases c.isClosed <;> simp [and_comm]
      rw [hclosed, hvain, h.isClosed, writesInVain_append_singleton, ← h.run]
      simp [or_assoc]
  | receive bytes =>
    have hstays : ∃ source, c.step (.receive bytes) = { c with source } := by
      rw [Client.step, receive]
      split
      · exact ⟨_, pump_of_not_reading h.reading⟩
      · exact ⟨c.source, rfl⟩
    obtain ⟨source, hstays⟩ := hstays
    rw [hstays] at hrun ⊢
    exact h.server hrun h.reading rfl rfl (by simpa using h.serverTakes) (by simp) (by simp)
      (by simp)
  | shutdown =>
    have hstays : c.step .shutdown = { c with serverSends := false, source := c.source.finish } :=
      pump_of_not_reading h.reading
    rw [hstays] at hrun ⊢
    exact h.server hrun h.reading rfl rfl (by simpa using h.serverTakes) (by simp) (by simp)
      (by simp)
  | hangUp =>
    have hstays : c.step .hangUp =
        { c with serverSends := false, serverTakes := false, source := c.source.finish } :=
      pump_of_not_reading h.reading
    rw [hstays] at hrun ⊢
    exact h.server hrun h.reading rfl rfl (by simp) (by simp) (by simp) (by simp)
  | close | drop =>
    have hclosed : c.close.isClosed = true :=
      (isClosed_step c .close).trans (Bool.or_true _)
    refine ⟨hrun, rfl, ?_, ?_, iff_of_true hclosed (by simp)⟩
    · show false = !c.close.isClosed
      rw [hclosed]
      rfl
    · show c.serverTakes ↔ _
      simpa using h.serverTakes

theorem BrokenDown.run_append (h : BrokenDown settings events c) (after : List Event) :
    BrokenDown settings (events ++ after) (c.run after) := by
  induction after generalizing events c with
  | nil =>
    rw [List.append_nil]
    exact h
  | cons event after ih =>
    rw [List.append_cons]
    exact ih (h.step event)

end BrokenDown

/-! ### Runs -/

/-- The client has read what the server sent up to the first event that ends the connection. -/
theorem reads_front {settings : Settings} {front events : List Event}
    (hfront : ∀ event ∈ front, ¬ event.isTeardown) (hsame : pieces front = pieces events) :
    Reads settings (readable settings events) ((connect settings).run front) := by
  have hreads : Reads settings (readable settings front) ((connect settings).run front) :=
    reads_connect.run hfront
  rwa [readable, hsame] at hreads

/-- Where the reader does not break down, the session is closed if and only if the connection has
ended, or the server has sent a line or a literal above its limit. -/
theorem isClosed_iff_of_not_crashes {settings : Settings} {events : List Event}
    (hreads : ¬ Crashes settings events) :
    ((connect settings).run events).isClosed ↔ (∃ event ∈ events, event.isTeardown) ∨
      ∃ e, (readable settings events).error = some e ∧ Framing.IsLimit settings e := by
  obtain ⟨front, after, rfl, hfront, hafter, hsame⟩ := exists_front events
  have hread : Reads settings (readable settings (front ++ after)) ((connect settings).run front) :=
    reads_front hfront hsame
  cases after with
  | nil =>
    rw [List.append_nil] at hread ⊢
    have hnone : ¬ ∃ event ∈ front, event.isTeardown := by
      rintro ⟨event, hmem, hevent⟩
      exact hfront event hmem hevent
    rw [or_iff_right hnone, hread.isClosed]
    cases herror : (readable settings front).error with
    | none => simp
    | some e =>
      have hlimit := Framing.isLimit_of_drain Bool.false_ne_true herror
      simp [hlimit]
  | cons event after =>
    have hevent : event.isTeardown := hafter event rfl
    have hclosed : (((connect settings).run front).step event).isClosed := by
      cases hstop : (readable settings (front ++ event :: after)).stop with
      | waiting => exact hread.isClosed_teardown hstop hevent
      | failed e =>
        rw [isClosed_step, hread.isClosed, Framing.Drained.error, hstop]
        rfl
      | crashed => exact absurd hstop hreads
    rw [run_append, run_cons]
    exact iff_of_true (isClosed_run_of_isClosed hclosed after)
      (.inl ⟨event, List.mem_append_right _ List.mem_cons_self, hevent⟩)

theorem brokenDown_run {settings : Settings} {events : List Event}
    (hcrash : Crashes settings events) :
    BrokenDown settings events ((connect settings).run events) := by
  obtain ⟨front, after, rfl, hfront, -, hsame⟩ := exists_front events
  have hbroken : Crashes settings front := by
    rw [Crashes, readable, hsame]
    exact hcrash
  rw [run_append]
  exact ((reads_front hfront rfl).brokenDown hbroken rfl hfront).run_append after

/-! ### After the end -/

/-- A search that is issued after the end is not affected by a write that fails. -/
theorem session_search_of_isClosed {c : Client} (hclosed : c.isClosed)
    (hdrained : c.session.inFlight.Drained) (command : Command) :
    (c.step (.search command)).session = (c.session.issue command).1 := by
  rw [step, search_eq]
  show Session.run (c.session.issue command).1 _ = _
  split
  · refine Session.close_of_isClosed ?_ (Session.drained_run hdrained [.issue command])
    show (c.session.run [.issue command]).isClosed
    rw [Session.isClosed_run, show c.session.isClosed = true from hclosed]
    rfl
  · rfl

/-- The session of a client is closed if and only if an event has ended the connection, or the
server has sent a line or a literal above its limit; unless the server has announced a literal that
is within the limit and that no buffer can hold. The reader breaks down then, and the session is
closed if and only if the client is closed or let go of, or a search that is not refused is issued
after the server has gone away. A closed session stays closed: then no search is in flight, every
search that was issued has one outcome, and one that is issued later gets its own at once: the
literal for which it is refused, or the loss of the connection. -/
theorem isClosed_resolves (settings : Settings) (events : List Event) :
    let c := (connect settings).run events
    let read := readable settings events
    (¬ Crashes settings events → (c.isClosed ↔ (∃ event ∈ events, event.isTeardown) ∨
      ∃ e, read.error = some e ∧ Framing.IsLimit settings e)) ∧
    (Crashes settings events →
      (∃ begun line size, sent events = read.responses.flatten ++ (begun ++ line) ++
        read.rest.bytes ∧ Framing.Overtaxes settings line size) ∧
      (c.isClosed ↔ .close ∈ events ∨ .drop ∈ events ∨ WritesInVain settings events)) ∧
    (c.isClosed →
      (∀ more, (c.run more).isClosed) ∧
      c.session.inFlight.entries = [] ∧
      (∀ id < events.countP Event.isSearch, ∃ outcome,
        c.session.inFlight.outcomes id = [outcome]) ∧
      ∀ command, (c.step (.search command)).session.inFlight.outcomes
        (events.countP Event.isSearch) = [.error
          ((c.session.refusedLiteral? command).elim .connectionLost .literalRefused)]) := by
  intro c read
  obtain ⟨hconserved, hdrained⟩ := conserved_run settings events
  have hregistered : c.session.inFlight.registered = _ := registered_run settings events
  refine ⟨isClosed_iff_of_not_crashes, fun hcrash => ⟨?_, ?_⟩,
    fun hclosed => ⟨fun more => isClosed_run_of_isClosed hclosed more, hdrained hclosed,
      fun id hid => ?_, fun command => ?_⟩⟩
  · exact Framing.exists_overtaxes_of_drain hcrash
  · exact (brokenDown_run hcrash).isClosed
  · refine hconserved.outcomes_of_not_mem (hregistered ▸ hid) ?_
    rw [InFlight.ids, hdrained hclosed]
    exact List.not_mem_nil
  · rw [session_search_of_isClosed hclosed hdrained, ← hregistered]
    exact Session.outcomes_issue_of_isClosed hclosed hconserved command

/-- A search is in flight when the server sends a line above the limit, and another is issued then.
And one is in flight when the server announces a literal that no buffer can hold, and ends what it
sends: nobody tells its caller. -/
theorem isClosed_resolves_limits :
    let search : Event := .search ⟨.everything, [], .search⟩
    let c := (connect { maxLine := 4 }).run [search, .receive (utf8 "* SEARCH 1")]
    let crashed := (connect { maxLiteral := Framing.allocationBound }).run
      [search, .receive (utf8 "* X \x7b9223372036854775808\x7d\r\n"), .shutdown]
    (c.isClosed ∧ (∃ outcome, c.session.inFlight.outcomes 0 = [outcome]) ∧
      (c.step search).session.inFlight.outcomes 1 = [.error .connectionLost]) ∧
    ¬ crashed.isClosed ∧ crashed.session.inFlight.outcomes 0 = [] := by
  intro search c crashed
  constructor
  · obtain ⟨hclosed_iff, -, hafter⟩ :=
      isClosed_resolves { maxLine := 4 } [search, .receive (utf8 "* SEARCH 1")]
    have hclosed : c.isClosed := (hclosed_iff (by decide +kernel)).mpr
      (.inr ⟨.lineTooLong, by decide +kernel, trivial⟩)
    obtain ⟨-, -, hresolved, hlater⟩ := hafter hclosed
    exact ⟨hclosed, hresolved 0 (by decide), hlater ⟨.everything, [], .search⟩⟩
  · obtain ⟨-, hcrash, -⟩ := isClosed_resolves { maxLiteral := Framing.allocationBound }
      [search, .receive (utf8 "* X \x7b9223372036854775808\x7d\r\n"), .shutdown]
    obtain ⟨-, hclosed_iff⟩ := hcrash (by decide +kernel)
    refine ⟨fun hclosed => ?_, by decide +kernel⟩
    rcases hclosed_iff.mp hclosed with hclose | hdrop | ⟨before, command, after, hevents, hgone, -⟩
    · simp [search] at hclose
    · simp [search] at hdrop
    · have hmem := List.mem_append_left (.search command :: after) hgone
      rw [← hevents] at hmem
      simp [search] at hmem

end ImapSearch.Client
