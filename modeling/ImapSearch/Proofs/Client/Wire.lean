import ImapSearch.Proofs.Client.Teardown
import ImapSearch.Proofs.Session.Tags

/-!
# ImapSearch.Proofs.Client.Wire

**What reaches the server.** A search is written when it is issued, as a whole or not at all: it
reaches the server if it was not refused and nothing has ended writing before
(`Client.taken_search`). The user ends writing when the client is closed or let go of, and the
server when it goes away (`Client.isWired_run`). So the server gets the searches one behind the
other in the order of issue, each of them once (`Client.wire_run`).

The end of reading is not the end of writing. A server that only ends what it sends, or one that
sends a line or a literal above its limit, has the session closed; searches that are issued then
fail at once for their callers, and are still written (`Client.search_of_isClosed`).
-/

namespace ImapSearch

/-! ### Tags in the order of issue -/

namespace Session

theorem tags_step_eq {first : Char} {k : Nat} {s : Session}
    (h : s.tags = TagSupply.drop { first } k) (event : Event) :
    (s.step event).tags = TagSupply.drop { first } (k + event.isIssue.toNat) := by
  rw [tags_step, h]
  cases event with
  | issue command => exact Pipeline.advance_drop _ k
  | _ => rfl

/-- The next tag counts the searches that were issued. -/
theorem tag_run (first : Char) (events : List Event) :
    ((withTags first).run events).tags.tag = issuedTag first (events.countP Event.isIssue) := by
  have htags : ∀ {k : Nat} {s : Session}, s.tags = TagSupply.drop { first } k →
      (s.run events).tags = TagSupply.drop { first } (k + events.countP Event.isIssue) := by
    intro k s h
    induction events generalizing k s with
    | nil => exact h
    | cons event events ih =>
      rw [run_cons, ih (tags_step_eq h event), List.countP_cons,
        Nat.add_comm (events.countP Event.isIssue), Nat.add_assoc]
      cases event.isIssue <;> rfl
  rw [htags (k := 0) rfl, Nat.zero_add]
  rfl

end Session

namespace Client

/-! ### Bytes on their way -/

/-- The bytes that an event makes reach the server. -/
def taken (c : Client) : Event → Bytes
  | .search command => (c.search command).2.2
  | _ => []

/-- The bytes that reach the server in a run, one behind the other. -/
def wire (c : Client) : List Event → Bytes
  | [] => []
  | event :: events => c.taken event ++ (c.step event).wire events

/-- Whether what the client writes reaches the server. -/
def isWired (c : Client) : Bool := c.writing && c.serverTakes

/-- Whether nothing that is written after the event reaches the server. -/
def Event.endsWriting : Event → Bool
  | .hangUp | .close | .drop => true
  | .search _ | .receive _ | .shutdown => false

theorem snd_write (c : Client) (bytes : Bytes) :
    (c.write bytes).2 = if c.isWired then bytes else [] := by
  rw [write, isWired]
  cases c.writing <;> cases c.serverTakes <;> rfl

/-- A search reaches the server as a whole or not at all. -/
theorem taken_search (c : Client) (command : Command) : c.taken (.search command) =
    if c.isWired then (c.session.issue command).2.sent.getD [] else [] := by
  rw [taken, search]
  rcases c.session.issue command with ⟨session, tag, sent⟩
  cases sent with
  | none => exact (ite_self _).symm
  | some bytes => exact snd_write { c with session } bytes

theorem isWired_pump (c : Client) : c.pump.isWired = c.isWired := by
  rw [pump_eq]
  rfl

theorem isWired_step (c : Client) (event : Event) :
    (c.step event).isWired = (c.isWired && !event.endsWriting) := by
  cases event with
  | search command =>
    rw [step, search_eq]
    -- A write fails only if the server no longer takes bytes.
    show (c.writing && !c.failsToWrite command && c.serverTakes) = (c.isWired && true)
    rw [failsToWrite, isWired]
    cases c.writing <;> cases c.serverTakes <;> simp
  | receive bytes =>
    rw [step, receive]
    split
    · rw [isWired_pump]
      exact (Bool.and_true _).symm
    · exact (Bool.and_true _).symm
  | shutdown =>
    rw [step, shutdown, isWired_pump]
    exact (Bool.and_true _).symm
  | hangUp =>
    rw [step, hangUp, isWired_pump]
    exact (Bool.and_false _).trans (Bool.and_false _).symm
  | close | drop => exact (Bool.and_false _).symm

/-- What the client writes reaches the server until somebody ends that. -/
theorem isWired_run (c : Client) (events : List Event) :
    (c.run events).isWired = (c.isWired && !events.any Event.endsWriting) := by
  induction events generalizing c with
  | nil => exact (Bool.and_true _).symm
  | cons event events ih =>
    rw [run_cons, ih, isWired_step, List.any_cons, Bool.not_or, Bool.and_assoc]

/-! ### The searches of a run -/

/-- A search that is issued in a run. -/
structure Search where
  /-- What has happened before. -/
  before : List Event
  command : Command

/-- The searches that the events issue behind others, in the order of issue. -/
def searchesAfter (before : List Event) : List Event → List Search
  | [] => []
  | .search command :: events =>
    ⟨before, command⟩ :: searchesAfter (before ++ [.search command]) events
  | event :: events => searchesAfter (before ++ [event]) events

/-- The searches of a run, in the order of issue. -/
def searches (events : List Event) : List Search := searchesAfter [] events

namespace Search

/-- The client before it issues the search. -/
def client (settings : Settings) (search : Search) : Client :=
  (connect settings).run search.before

/-- Whether the literals of the search are accepted. -/
def isAccepted (settings : Settings) (search : Search) : Bool :=
  ((search.client settings).session.refusedLiteral? search.command).isNone

/-- The tag of the search, which counts the searches in front of it, refused ones included. -/
def tag (settings : Settings) (search : Search) : Tag :=
  issuedTag settings.tagStart (search.before.countP Event.isSearch)

/-- The search as it is written. -/
def bytes (settings : Settings) (search : Search) : Bytes :=
  search.command.encode (search.tag settings)

/-- Whether the search reaches the server: it is accepted, and nothing has ended writing. -/
def reaches (settings : Settings) (search : Search) : Bool :=
  search.isAccepted settings && !search.before.any Event.endsWriting

end Search

section Wire

variable {settings : Settings}

theorem issue_search (search : Search) :
    ((search.client settings).session.issue search.command).2 =
      ⟨search.tag settings,
        if search.isAccepted settings then some (search.bytes settings) else none⟩ := by
  have htag : (search.client settings).session.tags.tag = search.tag settings := by
    rw [Search.client, session_run, Search.tag, ← (history_kinds _ search.before).1]
    exact Session.tag_run settings.tagStart _
  rw [Search.isAccepted, Search.bytes, ← htag]
  cases hcheck : (search.client settings).session.refusedLiteral? search.command with
  | none =>
    rw [Session.issue_of_accepted hcheck]
    rfl
  | some size =>
    rw [Session.issue_of_refused hcheck]
    rfl

theorem taken_client (settings : Settings) (search : Search) :
    (search.client settings).taken (.search search.command) =
      if search.reaches settings then search.bytes settings else [] := by
  have hwired : (search.client settings).isWired = !search.before.any Event.endsWriting :=
    isWired_run _ search.before
  rw [taken_search, issue_search, hwired, Search.reaches]
  cases search.isAccepted settings <;> cases search.before.any Event.endsWriting <;> rfl

/-- The server gets the searches that reach it, one behind the other. -/
theorem wire_searchesAfter (before events : List Event) :
    ((connect settings).run before).wire events =
      ((searchesAfter before events).filter (Search.reaches settings)).flatMap
        (Search.bytes settings) := by
  induction events generalizing before with
  | nil => rfl
  | cons event events ih =>
    have hnext : ((connect settings).run before).step event =
        (connect settings).run (before ++ [event]) := ((connect settings).run_append _ [event]).symm
    rw [wire, hnext, ih]
    cases event with
    | search command =>
      have htaken : ((connect settings).run before).taken (.search command) = _ :=
        taken_client settings ⟨before, command⟩
      rw [htaken, searchesAfter]
      cases hreaches : Search.reaches settings ⟨before, command⟩ with
      | true =>
        rw [List.filter_cons_of_pos hreaches, List.flatMap_cons]
        rfl
      | false =>
        rw [List.filter_cons_of_neg (by simp [hreaches])]
        rfl
    | receive bytes => rfl
    | shutdown | hangUp | close | drop => rfl

end Wire

/-- An event that ends writing ends the session as well, unless the reader has broken down and the
server goes away. -/
theorem isClosed_of_endsWriting {settings : Settings} {events : List Event}
    (h : events.any Event.endsWriting) (hgone : Crashes settings events → .hangUp ∉ events) :
    ((connect settings).run events).isClosed := by
  obtain ⟨event, hmem, hends⟩ := List.any_eq_true.mp h
  by_cases hcrash : Crashes settings events
  · refine (brokenDown_run hcrash).isClosed.mpr ?_
    cases event with
    | search _ | receive _ | shutdown => cases hends
    | hangUp => exact absurd hmem (hgone hcrash)
    | close => exact .inl hmem
    | drop => exact .inr (.inl hmem)
  · refine (isClosed_iff_of_not_crashes hcrash).mpr (.inl ⟨event, hmem, ?_⟩)
    cases event with
    | search _ | receive _ | shutdown => cases hends
    | hangUp | close | drop => rfl

/-- What the server gets in a run are searches as they were written, one behind the other in the
order of issue and each of them once: those that were accepted and issued before somebody ended
writing. A search has the tag under which it was issued, and nothing is written if it was refused.
Every search that was accepted while the session was not closed is among them, unless the server had
gone away unnoticed: then the reader had broken down before. -/
theorem wire_run (settings : Settings) (events : List Event) :
    (connect settings).wire events =
      ((searches events).filter (Search.reaches settings)).flatMap (Search.bytes settings) ∧
    ∀ search ∈ searches events,
      ((search.client settings).session.issue search.command).2 = ⟨search.tag settings,
        if search.isAccepted settings then some (search.bytes settings) else none⟩ ∧
      (search.isAccepted settings → ¬ (search.client settings).isClosed →
        (Crashes settings search.before → .hangUp ∉ search.before) →
        search.reaches settings) := by
  refine ⟨wire_searchesAfter [] events, fun search _ => ⟨issue_search search, ?_⟩⟩
  intro haccepted hopen hgone
  have hwired : search.before.any Event.endsWriting = false :=
    eq_false_of_ne_true fun hends => hopen (isClosed_of_endsWriting hends hgone)
  rw [Search.reaches, haccepted, hwired]
  rfl

/-- Of five searches one is refused for its literal, one is issued after the server has ended what
it sends, and one after it has gone away. -/
def severalSearches : List Event :=
  [.search ⟨.everything, [], .search⟩, .receive (utf8 "* CAPABILITY IMAP4rev1\r\n"),
    .search Session.accentSearch, .search ⟨.everything, [.count], .uidSearch⟩, .shutdown,
    .search ⟨.everything, [], .search⟩, .hangUp, .search ⟨.everything, [], .search⟩]

theorem wire_run_severalSearches :
    (connect {}).wire severalSearches = utf8 ("A0000 SEARCH (ALL)\r\n" ++
      "A0002 UID SEARCH RETURN (COUNT) (ALL)\r\n" ++ "A0003 SEARCH (ALL)\r\n") ∧
    Search.reaches {} ⟨severalSearches.take 3, ⟨.everything, [.count], .uidSearch⟩⟩ := by
  obtain ⟨hwire, hsearches⟩ := wire_run {} severalSearches
  refine ⟨hwire.trans (by decide +kernel),
    (hsearches _ ?_).2 (by decide +kernel) (by decide +kernel) (fun _ => by simp [severalSearches])⟩
  exact List.mem_cons_of_mem _ (List.mem_cons_of_mem _ List.mem_cons_self)

/-! ### Searches after the end -/

/-- A search that is issued when the session is closed fails at once for its caller. It reaches the
server all the same, and then as a whole, unless it is refused or somebody has ended writing: if
nothing but reading has ended, with what the server sends or at a limit, the search is sent. -/
theorem search_of_isClosed (settings : Settings) (events : List Event) (command : Command)
    (hclosed : ((connect settings).run events).isClosed) :
    let c := (connect settings).run events
    (c.step (.search command)).session.inFlight.outcomes (events.countP Event.isSearch) =
      [.error ((c.session.refusedLiteral? command).elim .connectionLost .literalRefused)] ∧
    (c.taken (.search command) ≠ [] ↔
      c.session.refusedLiteral? command = none ∧ ∀ event ∈ events, ¬ event.endsWriting) ∧
    (c.taken (.search command) ≠ [] → c.taken (.search command) =
      command.encode (issuedTag settings.tagStart (events.countP Event.isSearch))) := by
  intro c
  obtain ⟨hconserved, hdrained⟩ := conserved_run settings events
  have htaken : c.taken (.search command) = _ := taken_client settings ⟨events, command⟩
  have hwritten : Search.bytes settings ⟨events, command⟩ ≠ [] := by
    simp [Search.bytes, Command.encode]
  refine ⟨?_, ?_, fun hreached => ?_⟩
  · rw [session_search_of_isClosed hclosed hdrained, ← registered_run settings events]
    exact Session.outcomes_issue_of_isClosed hclosed hconserved command
  · rw [htaken, ite_ne_right_iff, and_iff_left hwritten, Search.reaches, Search.isAccepted]
    simp [Search.client, c]
  · rw [htaken] at hreached ⊢
    exact if_pos (ite_ne_right_iff.mp hreached).1

/-- The server has ended what it sends, and gets a search that has lost its connection. -/
theorem search_of_isClosed_shutdown :
    let c := (connect {}).run [.shutdown]
    c.isClosed ∧
    (c.step (.search ⟨.everything, [], .search⟩)).session.inFlight.outcomes 0 =
      [.error .connectionLost] ∧
    c.taken (.search ⟨.everything, [], .search⟩) = utf8 "A0000 SEARCH (ALL)\r\n" := by
  intro c
  have hclosed : c.isClosed := by decide +kernel
  obtain ⟨houtcome, hreached, hwhole⟩ :=
    search_of_isClosed {} [.shutdown] ⟨.everything, [], .search⟩ hclosed
  refine ⟨hclosed, houtcome, (hwhole (hreached.mpr ⟨rfl, by decide⟩)).trans (by decide +kernel)⟩

end Client

end ImapSearch
