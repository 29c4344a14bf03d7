import ImapSearch.Proofs.Client.Teardown
import ImapSearch.Proofs.Framing.Responses

/-!
# ImapSearch.Proofs.Client.Malformed

**Malformed responses.** A session passes over a response that breaks the grammar
(`Session.run_filter_isWellFormed`). A client passes over it as well, since it finds the response
behind: as long as the server sends complete responses within the limits, the session receives
these and no others, each as soon as its last byte has arrived, whatever is in them and whatever
pieces they arrive in (`Client.session_run_timeline`). So malformed responses can be deleted from
what the server sends, and nothing changes (`Client.malformed_ignored`).
-/

namespace ImapSearch

/-- Whether a response keeps to the grammar. -/
def Response.isWellFormed (input : Bytes) : Bool := (Response.parse input).isOk

namespace Session

/-- Whether an event is not the arrival of a malformed response. -/
def Event.isWellFormed : Event → Bool
  | .receive input => Response.isWellFormed input
  | .issue _ | .close | .abandon _ => true

theorem step_of_not_isWellFormed {event : Event} (h : ¬ event.isWellFormed) (s : Session) :
    s.step event = s := by
  cases event with
  | receive input =>
    cases hparse : Response.parse input with
    | error e => exact receive_of_error hparse
    | ok response =>
      rw [Event.isWellFormed, Response.isWellFormed, hparse] at h
      exact absurd rfl h
  | issue command | close | abandon id => exact absurd rfl h

/-- Malformed responses change nothing. -/
theorem run_filter_isWellFormed (s : Session) (events : List Event) :
    s.run (events.filter Event.isWellFormed) = s.run events := by
  induction events generalizing s with
  | nil => rfl
  | cons event events ih =>
    by_cases hevent : event.isWellFormed
    · rw [List.filter_cons_of_pos hevent, run_cons, run_cons, ih]
    · rw [List.filter_cons_of_neg hevent, run_cons, step_of_not_isWellFormed hevent, ih]

theorem isClosed_close (s : Session) : s.close.isClosed := by
  rw [close, InFlight.close, isClosed, InFlight.failAll_eq]

theorem drained_close (s : Session) : s.close.inFlight.Drained := by
  rw [close, InFlight.close, InFlight.failAll_eq]
  exact fun _ => rfl

end Session

namespace Client

open Framing (IsResponse Begins)

/-! ### What has arrived in full -/

/-- The responses that have arrived in full when `n` bytes have arrived. -/
def complete : List Bytes → Nat → List Bytes
  | [], _ => []
  | response :: responses, n =>
    if response.length ≤ n then response :: complete responses (n - response.length) else []

theorem complete_prefix (responses : List Bytes) (n : Nat) :
    complete responses n <+: responses := by
  induction responses generalizing n with
  | nil => exact List.prefix_refl _
  | cons response responses ih =>
    rw [complete]
    split
    · exact (List.prefix_cons_inj response).mpr (ih _)
    · exact List.nil_prefix

/-- What has arrived of responses are those that have arrived in full, and the beginning of the next
one. -/
theorem exists_begun {settings : Settings} {responses : List Bytes} {arrived : Bytes}
    (hresponses : ∀ response ∈ responses, IsResponse settings response)
    (h : arrived <+: responses.flatten) :
    ∃ begun, arrived = (complete responses arrived.length).flatten ++ begun ∧
      Begins settings begun := by
  induction responses generalizing arrived with
  | nil => exact ⟨[], by simpa [complete] using h, .inl rfl⟩
  | cons response responses ih =>
    rw [List.forall_mem_cons] at hresponses
    rw [List.flatten_cons] at h
    rw [complete]
    by_cases hlength : response.length ≤ arrived.length
    · obtain ⟨more, rfl⟩ := List.prefix_of_prefix_length_le (List.prefix_append _ _) h hlength
      obtain ⟨begun, hmore, hbegun⟩ :=
        ih hresponses.2 ((List.prefix_append_right_inj response).mp h)
      refine ⟨begun, ?_, hbegun⟩
      rw [if_pos hlength, List.length_append, Nat.add_sub_cancel_left, List.flatten_cons,
        List.append_assoc, ← hmore]
    · obtain ⟨missing, hmissing⟩ := List.prefix_of_prefix_length_le h (List.prefix_append _ _)
        (Nat.le_of_not_le hlength)
      refine ⟨arrived, by rw [if_neg hlength]; rfl, .inr ⟨missing, ?_, hmissing ▸ hresponses.1⟩⟩
      rintro rfl
      rw [List.append_nil] at hmissing
      exact hlength (Nat.le_of_eq (congrArg List.length hmissing.symm))

/-! ### What happens -/

/-- What an event does to a session that has ended. -/
def Event.issue? : Event → Option Session.Event
  | .search command => some (.issue command)
  | _ => none

/-- What happens while the server sends the given responses, of which `begun` bytes have arrived and
complete none yet: searches are issued, responses arrive in full, and the connection ends. After
that there are only searches. -/
def timeline (responses : List Bytes) (begun : Nat) : List Event → List Session.Event
  | [] => []
  | .search command :: events => .issue command :: timeline responses begun events
  | .receive bytes :: events =>
    let arrived := complete responses (begun + bytes.length)
    arrived.map .receive ++ timeline (responses.drop arrived.length)
      (begun + bytes.length - arrived.flatten.length) events
  | .shutdown :: events | .hangUp :: events | .close :: events | .drop :: events =>
    .close :: events.filterMap Event.issue?

theorem timeline_of_isTeardown {event : Event} (h : event.isTeardown) (responses : List Bytes)
    (begun : Nat) (events : List Event) : timeline responses begun (event :: events) =
      .close :: events.filterMap Event.issue? := by
  cases event with
  | search command | receive bytes => cases h
  | shutdown | hangUp | close | drop => rfl

/-! ### Reading responses -/

/-- A client that reads receives the responses that have arrived in full. It goes on unless the
server has ended what it sends, and keeps the beginning of the next response. -/
theorem pump_responses {c : Client} (hreading : c.reading) {responses : List Bytes} {begun : Bytes}
    (hresponses : ∀ response ∈ responses, IsResponse c.settings response)
    (hbegun : Begins c.settings begun) (hbytes : c.source.bytes = responses.flatten ++ begun) :
    c.pump.session = c.session.run
      (responses.map .receive ++ if c.source.ended then [.close] else []) ∧
    c.pump.reading = !c.source.ended ∧
    (¬ c.source.ended → c.pump.source.bytes = begun ∧ ¬ c.pump.source.ended) := by
  rw [pump_eq, readEvents, hreading, if_pos rfl, if_pos rfl]
  rcases Framing.exists_drain_eq hresponses hbegun hbytes with
    ⟨hends, e, rest, hdrain⟩ | ⟨hwait, rest, hdrain, hleft⟩
  · have hdrained : c.drained = ⟨responses, .failed e, rest⟩ := hdrain
    rw [hdrained, hends]
    exact ⟨rfl, rfl, fun hopen => absurd rfl hopen⟩
  · have hdrained : c.drained = ⟨responses, .waiting, rest⟩ := hdrain
    rw [hdrained, eq_false_of_ne_true hwait]
    exact ⟨rfl, rfl, fun _ => hleft⟩

/-- The connection stands, and of what has arrived the beginning of a response is left. -/
structure Stands (settings : Settings) (begun : Bytes) (c : Client) : Prop where
  limits : c.settings = settings
  reading : c.reading
  writing : c.writing
  serverSends : c.serverSends
  serverTakes : c.serverTakes
  goesOn : ¬ c.source.ended
  bytes : c.source.bytes = begun
  begins : Begins settings begun

/-- The connection has ended, and nothing arrives any more. -/
structure Ended (c : Client) : Prop where
  stopped : c.reading = false
  unreachable : ¬ c.isReachable
  isClosed : c.isClosed
  drained : c.session.inFlight.Drained

/-- A client that its user closes neither reads nor writes. -/
theorem ended_close (c : Client) : Ended c.close := by
  refine ⟨rfl, ?_, c.session.isClosed_close, c.session.drained_close⟩
  rw [isReachable, close, Bool.or_false, Bool.and_false]
  exact Bool.false_ne_true

section Steps

variable {settings : Settings} {begun : Bytes} {c : Client}

theorem Stands.search (h : Stands settings begun c) (command : Command) :
    (c.step (.search command)).session = c.session.step (.issue command) ∧
      Stands settings begun (c.step (.search command)) := by
  rw [step, search_eq, failsToWrite_eq_false h.serverTakes]
  refine ⟨rfl, h.limits, h.reading, ?_, h.serverSends, h.serverTakes, h.goesOn, h.bytes, h.begins⟩
  rw [h.writing]
  rfl

theorem Stands.receive (h : Stands settings begun c) {responses : List Bytes}
    (hresponses : ∀ response ∈ responses, IsResponse settings response) {bytes next : Bytes}
    (hnext : Begins settings next) (hbytes : begun ++ bytes = responses.flatten ++ next) :
    (c.step (.receive bytes)).session = c.session.run (responses.map .receive) ∧
      Stands settings next (c.step (.receive bytes)) := by
  have hreachable : c.isReachable := by
    rw [isReachable, h.serverSends, h.reading]
    rfl
  have hsource : (c.source.push bytes).bytes = responses.flatten ++ next := by
    rw [ByteSource.bytes_push, h.bytes, hbytes]
  have hended : (c.source.push bytes).ended = false := eq_false_of_ne_true h.goesOn
  obtain ⟨rfl⟩ := h.limits
  rw [step, Client.receive, if_pos hreachable]
  obtain ⟨hsession, hreads, hleft⟩ := pump_responses (c := { c with source := c.source.push bytes })
    h.reading hresponses hnext hsource
  obtain ⟨hrest, hopen⟩ := hleft h.goesOn
  dsimp only at hsession hreads
  rw [hended] at hsession hreads
  refine ⟨by simpa using hsession, ?_⟩
  rw [pump_eq] at hrest hopen hreads ⊢
  exact ⟨rfl, hreads, h.writing, h.serverSends, h.serverTakes, hopen, hrest, hnext⟩

/-- Whatever ends the connection closes the session. The beginning of a response is lost. -/
theorem Stands.teardown (h : Stands settings begun c) {event : Event}
    (hevent : event.isTeardown) :
    (c.step event).session = c.session.close ∧ Ended (c.step event) := by
  have hends : ∀ c' : Client, c'.settings = settings → c'.reading → c'.serverSends = false →
      c'.source = c.source.finish → c'.session = c.session →
      c'.pump.session = c.session.close ∧ Ended c'.pump := by
    rintro c' rfl hreading hsends hsource hsession
    have hbytes : c'.source.bytes = ([] : List Bytes).flatten ++ begun := by
      rw [hsource, ByteSource.bytes_finish, h.bytes]
      rfl
    obtain ⟨hclose, hstopped, -⟩ := pump_responses hreading (by simp) h.begins hbytes
    rw [hsource, hsession] at hclose
    rw [hsource] at hstopped
    have hclosed : c'.pump.session = c.session.close := hclose
    refine ⟨hclosed, hstopped, ?_, ?_, ?_⟩
    · rw [pump_eq, isReachable]
      show ¬ (c'.serverSends && _)
      rw [hsends]
      exact Bool.false_ne_true
    · rw [isClosed, hclosed]
      exact c.session.isClosed_close
    · rw [hclosed]
      exact c.session.drained_close
  cases event with
  | search command | receive bytes => cases hevent
  | shutdown | hangUp => exact hends _ h.limits h.reading rfl rfl rfl
  | close | drop => exact ⟨rfl, ended_close c⟩

/-- After the end there is nothing left to happen but searches. -/
theorem Ended.step (h : Ended c) (event : Event) :
    (c.step event).session = c.session.run event.issue?.toList ∧ Ended (c.step event) := by
  have hstays : ∀ c' : Client, c'.reading = false → c'.serverSends = false →
      c'.session = c.session → c'.pump.session = c.session ∧ Ended c'.pump := by
    intro c' hstopped hsends hsession
    rw [pump_of_not_reading hstopped]
    refine ⟨hsession, hstopped, ?_, ?_, hsession ▸ h.drained⟩
    · rw [isReachable, hsends]
      exact Bool.false_ne_true
    · rw [Client.isClosed, hsession]
      exact h.isClosed
  cases event with
  | search command =>
    refine ⟨session_search_of_isClosed h.isClosed h.drained command, ?_, ?_, ?_, ?_⟩
    · rw [Client.step, search_eq]
      exact h.stopped
    · have hunreachable := h.unreachable
      rw [isReachable, h.stopped, Bool.false_or, Bool.and_eq_true] at hunreachable
      rw [Client.step, search_eq, isReachable]
      dsimp only
      rw [h.stopped, Bool.false_or, Bool.and_eq_true, Bool.and_eq_true]
      exact fun hreachable => hunreachable ⟨hreachable.1, hreachable.2.1⟩
    · rw [isClosed_step, h.isClosed]
      rfl
    · rw [session_step]
      exact Session.drained_run h.drained _
  | receive bytes =>
    have hunread : c.step (.receive bytes) = c := if_neg h.unreachable
    rw [hunread]
    exact ⟨rfl, h⟩
  | shutdown | hangUp => exact hstays _ h.stopped rfl rfl
  | close | drop => exact ⟨Session.close_of_isClosed h.isClosed h.drained, ended_close c⟩

/-! ### Runs -/

theorem Ended.session_run (h : Ended c) (events : List Event) :
    (c.run events).session = c.session.run (events.filterMap Event.issue?) := by
  induction events generalizing c with
  | nil => rfl
  | cons event events ih =>
    obtain ⟨hsession, hended⟩ := h.step event
    rw [run_cons, ih hended, hsession, ← Session.run_append]
    cases hissue : event.issue? with
    | none => rw [List.filterMap_cons_none hissue, Option.toList_none, List.nil_append]
    | some issue => rw [List.filterMap_cons_some hissue, Option.toList_some, List.singleton_append]

/-- What the session of a client goes through is told by the responses that the server sends, and by
the order of events. -/
theorem Stands.session_run (h : Stands settings begun c) {responses : List Bytes}
    {events : List Event}
    (hresponses : ∀ response ∈ responses, IsResponse settings response)
    (hsent : begun ++ sent events <+: responses.flatten) :
    (c.run events).session = c.session.run (timeline responses begun.length events) := by
  -- What is left of the bytes goes with the client from one event to the next, and so do the
  -- responses that are not complete yet.
  induction events generalizing c begun responses with
  | nil => rfl
  | cons event events ih =>
    rw [run_cons]
    have hteardown : event.isTeardown → ((c.step event).run events).session =
        c.session.run (timeline responses begun.length (event :: events)) := by
      intro hevent
      obtain ⟨hclosed, hended⟩ := h.teardown hevent
      rw [hended.session_run, hclosed, timeline_of_isTeardown hevent]
      rfl
    cases event with
    | search command =>
      obtain ⟨hsession, hstands⟩ := h.search command
      rw [ih hstands hresponses hsent, hsession]
      rfl
    | receive bytes =>
      have hpieces : begun ++ bytes ++ sent events <+: responses.flatten := by
        rw [List.append_assoc]
        exact hsent
      obtain ⟨next, hnext, hbegins⟩ :=
        exists_begun hresponses ((List.prefix_append _ _).trans hpieces)
      rw [List.length_append] at hnext
      rw [timeline]
      generalize hdone : complete responses (begun.length + bytes.length) = done at hnext
      have hcut : done ++ responses.drop done.length = responses :=
        List.prefix_iff_eq_append.mp (hdone ▸ complete_prefix _ _)
      have hlater : ∀ response ∈ done ++ responses.drop done.length, IsResponse settings response :=
        hcut.symm ▸ hresponses
      rw [List.forall_mem_append] at hlater
      obtain ⟨hsession, hstands⟩ := h.receive hlater.1 hbegins hnext
      have hrest : next ++ sent events <+: (responses.drop done.length).flatten := by
        have hflatten : responses.flatten =
            done.flatten ++ (responses.drop done.length).flatten := by
          rw [← List.flatten_append, hcut]
        rw [hnext, hflatten, List.append_assoc] at hpieces
        exact (List.prefix_append_right_inj _).mp hpieces
      have hlength : begun.length + bytes.length - done.flatten.length = next.length := by
        have hlengths := congrArg List.length hnext
        rw [List.length_append, List.length_append] at hlengths
        omega
      rw [ih hstands hlater.2 hrest, hsession, Session.run_append, hlength]
    | shutdown | hangUp | close | drop => exact hteardown rfl

end Steps

/-- Each search of a run is issued, each response is received when its last byte has arrived, and
the session is closed when the connection ends. Nothing else happens to the session. -/
theorem session_run_timeline (settings : Settings) (session : Session) {responses : List Bytes}
    {events : List Event} (hresponses : ∀ response ∈ responses, IsResponse settings response)
    (hsent : sent events <+: responses.flatten) :
    (run { settings, session } events).session = session.run (timeline responses 0 events) := by
  have hstands : Stands settings [] { settings, session } :=
    ⟨rfl, rfl, rfl, rfl, rfl, Bool.false_ne_true, rfl, .inl rfl⟩
  exact hstands.session_run hresponses hsent

/-- What is read of a stream of complete responses, whatever its chunks are. -/
theorem session_pump_ofChunks (settings : Settings) (session : Session) {responses : List Bytes}
    {chunks : List Bytes} (hresponses : ∀ response ∈ responses, IsResponse settings response)
    (hchunks : chunks.flatten = responses.flatten) :
    (pump { settings, session, source := .ofChunks chunks }).session =
      session.run (responses.map .receive ++ [.close]) := by
  have hbytes : (ByteSource.ofChunks chunks).bytes = responses.flatten ++ [] := by
    rw [List.append_nil, ← hchunks]
    rfl
  exact (pump_responses (c := { settings, session, source := .ofChunks chunks }) rfl hresponses
    (.inl rfl) hbytes).1

/-- Malformed responses are as if they had never been sent. Let two streams of complete responses
within the limits differ in malformed responses only. Then two clients that read them, in whatever
chunks, end with the same session: with the same capabilities, closed or not, with the same searches
in flight, which have found the same, and with the same outcomes. The same holds of any two runs in
which the server sends such streams, or the beginnings of them, in whatever pieces: where what
happens in the one differs from what happens in the other in malformed responses only, the sessions
end the same. -/
theorem malformed_ignored (settings : Settings) (session : Session)
    {responses responses' : List Bytes}
    (hresponses : ∀ response ∈ responses, IsResponse settings response)
    (hresponses' : ∀ response ∈ responses', IsResponse settings response) :
    (∀ chunks chunks' : List Bytes, chunks.flatten = responses.flatten →
      chunks'.flatten = responses'.flatten →
      responses.filter Response.isWellFormed = responses'.filter Response.isWellFormed →
      (pump { settings, session, source := .ofChunks chunks }).session =
        (pump { settings, session, source := .ofChunks chunks' }).session) ∧
    ∀ events events' : List Event, sent events <+: responses.flatten →
      sent events' <+: responses'.flatten →
      (timeline responses 0 events).filter Session.Event.isWellFormed =
        (timeline responses' 0 events').filter Session.Event.isWellFormed →
      (run { settings, session } events).session = (run { settings, session } events').session := by
  refine ⟨fun chunks chunks' hchunks hchunks' hsame => ?_,
    fun events events' hsent hsent' hsame => ?_⟩
  · have hread : ∀ responses : List Bytes, session.run (responses.map .receive) =
        session.run ((responses.filter Response.isWellFormed).map .receive) := by
      intro responses
      rw [← Session.run_filter_isWellFormed, List.filter_map]
      rfl
    rw [session_pump_ofChunks settings session hresponses hchunks,
      session_pump_ofChunks settings session hresponses' hchunks', Session.run_append,
      Session.run_append, hread responses, hread responses', hsame]
  · rw [session_run_timeline settings session hresponses hsent,
      session_run_timeline settings session hresponses' hsent',
      ← Session.run_filter_isWellFormed session (timeline responses 0 events), hsame,
      Session.run_filter_isWellFormed]

/-- A result that breaks off behind two literals, with fields in front of them that can be read. -/
def brokenResult : Bytes :=
  utf8 "* ESEARCH (TAG \"A0000\") COUNT 9 X (\x7b4\x7d\r\n)\r\n( \x7b1\x7d\r\n\x7d\r\n"

theorem isResponse_brokenResult : IsResponse {} brokenResult := by
  have hrest : IsResponse {} (utf8 " \x7b1\x7d" ++ crlf ++ utf8 "\x7d" ++ ([] ++ crlf)) :=
    .literal (by decide +kernel) (by decide +kernel) (by decide +kernel)
      ⟨by decide +kernel, by decide +kernel⟩
      (.line (by decide) (by decide) (by decide +kernel))
  have hwhole : IsResponse {} (utf8 "* ESEARCH (TAG \"A0000\") COUNT 9 X (\x7b4\x7d" ++ crlf ++
      utf8 ")\r\n(" ++ (utf8 " \x7b1\x7d" ++ crlf ++ utf8 "\x7d" ++ ([] ++ crlf))) :=
    .literal (by decide +kernel) (by decide +kernel) (by decide +kernel)
      ⟨by decide +kernel, by decide +kernel⟩ hrest
  have hbytes : utf8 "* ESEARCH (TAG \"A0000\") COUNT 9 X (\x7b4\x7d" ++ crlf ++ utf8 ")\r\n(" ++
      (utf8 " \x7b1\x7d" ++ crlf ++ utf8 "\x7d" ++ ([] ++ crlf)) = brokenResult := by
    decide +kernel
  exact hbytes ▸ hwhole

/-- The broken result arrives in two pieces and two searches, or it does not. The first search has
the numbers that were found, and nothing of the broken result. -/
theorem malformed_ignored_brokenResult :
    let found := utf8 "* SEARCH 1 3" ++ crlf
    let done := utf8 "A0000 OK done" ++ crlf
    let command : Command := ⟨.everything, [], .search⟩
    let events := [.search command, .receive (found ++ brokenResult.take 40), .search command,
      .receive (brokenResult.drop 40 ++ done)]
    let events' := [.search command, .receive (found.take 3), .receive (found.drop 3),
      .search command, .receive done]
    let c := run { settings := {}, session := {} } events
    let c' := run { settings := {}, session := {} } events'
    let read := fun chunks : List Bytes =>
      pump { settings := {}, session := {}, source := .ofChunks chunks }
    c.session = c'.session ∧
    c.session.inFlight.outcomes 0 = [.ok (SearchData.addNums {} [1, 3])] ∧
    (read [found ++ brokenResult, done]).session = (read [found, done]).session := by
  intro found done command events events' c c' read
  have hfound : IsResponse {} found :=
    .line (by decide +kernel) (by decide +kernel) (by decide +kernel)
  have hdone : IsResponse {} done :=
    .line (by decide +kernel) (by decide +kernel) (by decide +kernel)
  have hresponses : ∀ response ∈ [found, brokenResult, done], IsResponse {} response := by
    simp [hfound, hdone, isResponse_brokenResult]
  have hresponses' : ∀ response ∈ [found, done], IsResponse {} response := by
    simp [hfound, hdone]
  obtain ⟨hread, hrun⟩ := malformed_ignored {} {} hresponses hresponses'
  have hevents : timeline [found, brokenResult, done] 0 events =
      [.issue command, .receive found, .issue command, .receive brokenResult, .receive done] := rfl
  have hevents' : timeline [found, done] 0 events' =
      [.issue command, .receive found, .issue command, .receive done] := rfl
  have hmalformed : ¬ Response.isWellFormed brokenResult := by decide +kernel
  have hsame : (timeline [found, brokenResult, done] 0 events).filter Session.Event.isWellFormed =
      (timeline [found, done] 0 events').filter Session.Event.isWellFormed := by
    rw [hevents, hevents']
    simp [List.filter_cons, Session.Event.isWellFormed, hmalformed]
  have hsent : sent events <+: [found, brokenResult, done].flatten := by decide +kernel
  have hsent' : sent events' <+: [found, done].flatten := by decide +kernel
  have hsession : c.session = c'.session := hrun events events' hsent hsent' hsame
  refine ⟨hsession, ?_, hread [found ++ brokenResult, done] [found, done] (by decide +kernel)
    (by decide +kernel) (by decide +kernel)⟩
  rw [hsession]
  decide +kernel

end Client

end ImapSearch
