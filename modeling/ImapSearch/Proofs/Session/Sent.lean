import ImapSearch.Proofs.Session.Closed

/-!
# ImapSearch.Proofs.Session.Sent

**The searches in flight are those that were sent and wait.** A plain result belongs to
the oldest search in flight, so these have to stand in the order in which the server
gets to see them. `Session.searches` lists the searches of a run in the order of issue, in
which they are sent as well, and the place of a search in it is its number.

A search that is put in flight was sent under the same tag, and one that was refused is
not put in flight (`Session.marks_step_sublist`). A search in flight has no outcome, and
any other has one. So at every point of a run the searches in flight are exactly those
that were sent and have no outcome (`Session.inFlight_eq_sent`).
-/

namespace ImapSearch

/-- A search has no outcome if and only if it is in flight. -/
theorem InFlight.Conserved.isEmpty_outcomes {s : InFlight} (h : s.Conserved) {id : Nat}
    (hid : id < s.registered) : (s.outcomes id).isEmpty = decide (id ∈ s.ids) := by
  by_cases hpending : id ∈ s.ids
  · rw [(h.outcomes_of_mem hpending).2, decide_eq_true hpending]
    rfl
  · obtain ⟨outcome, houtcome⟩ := h.outcomes_of_not_mem hid hpending
    rw [houtcome, decide_eq_false hpending]
    rfl

namespace Session

/-! ### The searches of a run -/

/-- The search that an event issues. -/
def issued? (s : Session) : Event → Option Issued
  | .issue command => some (s.issue command).2
  | _ => none

/-- The searches that the events issue, in the order of issue. -/
def searches (s : Session) : List Event → List Issued
  | [] => []
  | event :: events => (s.issued? event).toList ++ (s.step event).searches events

theorem searches_append (s : Session) (events more : List Event) :
    s.searches (events ++ more) = s.searches events ++ (s.run events).searches more := by
  induction events generalizing s with
  | nil => rfl
  | cons event events ih =>
    rw [List.cons_append, searches, searches, ih, List.append_assoc]
    rfl

theorem registered_step_eq (s : Session) (event : Event) : (s.step event).inFlight.registered =
    s.inFlight.registered + (s.issued? event).toList.length := by
  rw [registered_step]
  cases event <;> rfl

theorem registered_run_eq (s : Session) (events : List Event) :
    (s.run events).inFlight.registered = s.inFlight.registered + (s.searches events).length := by
  induction events generalizing s with
  | nil => rfl
  | cons event events ih =>
    rw [run_cons, ih, registered_step_eq, searches, List.length_append, Nat.add_assoc]

/-- Every search of a run was issued by a session. -/
theorem exists_issue_of_mem_searches {s : Session} {events : List Event} {search : Issued}
    (h : search ∈ s.searches events) :
    ∃ (t : Session) (command : Command), search = (t.issue command).2 := by
  induction events generalizing s with
  | nil => cases h
  | cons event events ih =>
    rw [searches, List.mem_append, Option.mem_toList] at h
    rcases h with hfirst | hlater
    · cases event with
      | issue command => exact ⟨s, command, (Option.some.inj hfirst).symm⟩
      | _ => cases hfirst
    · exact ih hlater

/-- What is sent of a search begins with its tag. -/
theorem tag_prefix_of_sent {s : Session} {command : Command} {bytes : Bytes}
    (h : (s.issue command).2.sent = some bytes) :
    utf8 (s.issue command).2.tag.text ++ [Ascii.space] <+: bytes := by
  cases hcheck : s.refusedLiteral? command with
  | some size =>
    rw [issue_of_refused hcheck] at h
    cases h
  | none =>
    rw [issue_of_accepted hcheck] at h ⊢
    cases h
    simp [Command.encode, List.append_assoc]

/-! ### Searches that were sent -/

/-- The tags and the numbers of the searches that were sent, if the first search has the number
`n`. -/
def sentMarks (n : Nat) (searches : List Issued) : List (Tag × Nat) :=
  ((searches.zipIdx n).filter fun (search, _) => search.sent.isSome).map
    fun (search, id) => (search.tag, id)

/-- The tags and the numbers of the searches in flight. -/
def marks (s : Session) : List (Tag × Nat) := s.inFlight.entries.map fun e => (e.tag, e.id)

theorem sentMarks_append (n : Nat) (searches more : List Issued) :
    sentMarks n (searches ++ more) =
      sentMarks n searches ++ sentMarks (n + searches.length) more := by
  rw [sentMarks, List.zipIdx_append, List.filter_append, List.map_append]
  rfl

theorem map_snd_marks (s : Session) : s.marks.map Prod.snd = s.inFlight.ids := by
  simp [marks, InFlight.ids, Function.comp_def]

theorem nodup_sentMarks (n : Nat) (searches : List Issued) :
    ((sentMarks n searches).map Prod.snd).Nodup := by
  have hnumbers : (sentMarks n searches).map Prod.snd =
      ((searches.zipIdx n).filter fun (search, _) => search.sent.isSome).map Prod.snd := by
    rw [sentMarks, List.map_map]
    rfl
  have hsublist : ((sentMarks n searches).map Prod.snd).Sublist
      (List.range' n searches.length) := by
    rw [hnumbers, ← List.zipIdx_map_snd]
    exact List.filter_sublist.map _
  exact hsublist.nodup List.nodup_range'

/-- A search that is put in flight was sent, and under the same tag and number. -/
theorem newLabels_sent {s : Session} {event : Event} {op : InFlight.Op}
    (h : s.op? event = some op) (n : Nat) :
    (op.newLabels n).map (fun label => (label.2.1, label.1)) =
      sentMarks n (s.issued? event).toList := by
  cases event with
  | issue command =>
    rw [op?] at h
    rw [issued?, Option.toList_some]
    cases hcheck : s.refusedLiteral? command with
    | some size =>
      rw [hcheck] at h
      cases h
      rw [issue_of_refused hcheck]
      rfl
    | none =>
      rw [hcheck] at h
      cases h
      rw [issue_of_accepted hcheck]
      rfl
  | receive input =>
    obtain ⟨r, -, hr⟩ := of_op?_receive h
    obtain ⟨_, _, _, -, rfl⟩ | ⟨_, -, rfl⟩ | ⟨_, _, -, rfl⟩ | ⟨_, -, rfl⟩ := Response.of_op? hr
    all_goals rfl
  | close =>
    cases h
    rfl
  | abandon id =>
    cases h
    rfl

theorem marks_step_sublist (s : Session) (event : Event) : (s.step event).marks.Sublist
    (s.marks ++ sentMarks s.inFlight.registered (s.issued? event).toList) := by
  have hlabels : ∀ inFlight : InFlight, inFlight.entries.map (fun e => (e.tag, e.id)) =
      inFlight.labels.map fun label => (label.2.1, label.1) := by
    intro inFlight
    simp [InFlight.labels, Function.comp_def]
  rw [marks, inFlight_step]
  cases hop : s.op? event with
  | none => exact List.sublist_append_left _ _
  | some op =>
    have hstep := (s.inFlight.labels_step_sublist op).map fun label => (label.2.1, label.1)
    rw [List.map_append, newLabels_sent hop, ← hlabels, ← hlabels] at hstep
    exact hstep

/-- The searches in flight were sent, in the order in which they are in flight. -/
theorem marks_run_sublist (s : Session) (events : List Event) : (s.run events).marks.Sublist
    (s.marks ++ sentMarks s.inFlight.registered (s.searches events)) := by
  induction events generalizing s with
  | nil => exact List.sublist_append_left _ _
  | cons event events ih =>
    have hrest := ih (s.step event)
    rw [registered_step_eq] at hrest
    rw [run_cons, searches, sentMarks_append, ← List.append_assoc]
    exact hrest.trans ((s.marks_step_sublist event).append_right _)

/-! ### The searches in flight -/

/-- A search in flight was sent. -/
theorem exists_sent_of_mem_ids {first : Char} {events : List Event} {id : Nat}
    (h : id ∈ ((withTags first).run events).inFlight.ids) : ∃ search,
      ((withTags first).searches events)[id]? = some search ∧ search.sent.isSome := by
  have hsublist : ((withTags first).run events).marks.Sublist
      (sentMarks 0 ((withTags first).searches events)) := marks_run_sublist _ events
  rw [← map_snd_marks] at h
  obtain ⟨mark, hmark, rfl⟩ := List.mem_map.mp h
  obtain ⟨⟨search, id⟩, hsearch, rfl⟩ := List.mem_map.mp (hsublist.subset hmark)
  obtain ⟨hplace, hsent⟩ := List.mem_filter.mp hsearch
  exact ⟨search, List.mem_zipIdx_iff_getElem?.mp hplace, hsent⟩

/-- A search that was not sent was not in flight at any time. -/
theorem not_mem_ids_of_refused {first : Char} {before after : List Event} {search : Issued}
    {id : Nat} (hplace : ((withTags first).searches (before ++ after))[id]? = some search)
    (hrefused : search.sent = none) : id ∉ ((withTags first).run before).inFlight.ids := by
  intro hid
  obtain ⟨sent, hsent, hsome⟩ := exists_sent_of_mem_ids hid
  rw [searches_append, List.getElem?_append_left (List.getElem?_eq_some_iff.mp hsent).1,
    hsent] at hplace
  cases hplace
  rw [hrefused] at hsome
  cases hsome

/-- At every point of a run in which every caller waits, the searches in flight are those that were
sent and have no outcome yet, in the order in which they were sent. What was sent of a search begins
with its tag. A search that was not sent has an outcome, and was not in flight at any time. -/
theorem inFlight_eq_sent (first : Char) (events : List Event)
    (hwaits : ∀ event ∈ events, ¬ event.isAbandon) :
    let s := (withTags first).run events
    let searches := ((withTags first).searches events).zipIdx
    s.inFlight.entries.map (fun e => (e.tag, e.id)) =
      (searches.filter fun (search, id) =>
        (s.inFlight.outcomes id).isEmpty && search.sent.isSome).map
          (fun (search, id) => (search.tag, id)) ∧
    (∀ search id, (search, id) ∈ searches → ∀ bytes, search.sent = some bytes →
      utf8 search.tag.text ++ [Ascii.space] <+: bytes) ∧
    ∀ search id, (search, id) ∈ searches → search.sent = none →
      (∃ outcome, s.inFlight.outcomes id = [outcome]) ∧
      ∀ before, before <+: events → id ∉ ((withTags first).run before).inFlight.ids := by
  intro s searches
  have hconserved : s.inFlight.Conserved := conserved_run InFlight.conserved_empty hwaits
  have hregistered : s.inFlight.registered = ((withTags first).searches events).length :=
    ((withTags first).registered_run_eq events).trans (Nat.zero_add _)
  have hplace : ∀ {search id}, (search, id) ∈ searches →
      ((withTags first).searches events)[id]? = some search ∧ id < s.inFlight.registered := by
    intro search id hmem
    have hsearch := List.mem_zipIdx_iff_getElem?.mp hmem
    exact ⟨hsearch, hregistered ▸ (List.getElem?_eq_some_iff.mp hsearch).1⟩
  refine ⟨?_, fun search id hmem bytes hbytes => ?_, fun search id hmem hrefused => ?_⟩
  · have hsublist : s.marks.Sublist (sentMarks 0 ((withTags first).searches events)) :=
      marks_run_sublist _ events
    -- Of the searches that were sent, those are in flight that have no outcome.
    refine (InFlight.eq_filter_of_sublist hsublist (nodup_sentMarks _ _)).trans ?_
    rw [sentMarks, List.filter_map, List.filter_filter, map_snd_marks]
    refine congrArg _ (List.filter_congr fun ⟨search, id⟩ hmem => ?_)
    have hpending := hconserved.isEmpty_outcomes (hplace hmem).2
    exact congrArg (· && search.sent.isSome) hpending.symm
  · obtain ⟨t, command, rfl⟩ := exists_issue_of_mem_searches (List.mem_of_getElem? (hplace hmem).1)
    exact tag_prefix_of_sent hbytes
  · have hnever : ∀ before, before <+: events →
        id ∉ ((withTags first).run before).inFlight.ids := by
      rintro before ⟨after, rfl⟩
      exact not_mem_ids_of_refused (hplace hmem).1 hrefused
    exact ⟨hconserved.outcomes_of_not_mem (hplace hmem).2 (hnever events List.prefix_rfl), hnever⟩

/-- Of four searches the first is over, the second was refused for its literal, and the others
wait. -/
def waitingSearches : List Event :=
  [.issue ⟨.everything, [], .search⟩, .receive (utf8 "* CAPABILITY IMAP4rev1\r\n"),
    .issue accentSearch, .issue ⟨.everything, [.count], .uidSearch⟩,
    .receive (utf8 "A0000 OK done\r\n"), .issue ⟨.everything, [], .search⟩]

theorem inFlight_eq_sent_waitingSearches :
    let s := (withTags 'A').run waitingSearches
    s.inFlight.entries.map (fun e => (e.tag, e.id)) = [(⟨"A0002"⟩, 2), (⟨"A0003"⟩, 3)] ∧
      (∃ outcome, s.inFlight.outcomes 1 = [outcome]) ∧
      1 ∉ ((withTags 'A').run (waitingSearches.take 3)).inFlight.ids := by
  intro s
  obtain ⟨hsent, -, hrefused⟩ := inFlight_eq_sent 'A' waitingSearches (by decide)
  obtain ⟨hresolved, hnever⟩ := hrefused ⟨⟨"A0001"⟩, none⟩ 1 (by decide +kernel) rfl
  refine ⟨hsent.trans ?_, hresolved, hnever _ (List.take_prefix 3 _)⟩
  decide +kernel

end Session

end ImapSearch
