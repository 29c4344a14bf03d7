import ImapSearch.Proofs.InFlight.Addressed
import ImapSearch.Proofs.Scan.Ensures
import ImapSearch.Proofs.SequenceSet.Normal
import ImapSearch.Proofs.Session.Run

/-!
# ImapSearch.Proofs.Session.Pipeline

**Searches that wait in line.** A plain result does not say which search it belongs
to. A server that works on one search after another still gives each of them its own
numbers: `Pipeline` is what the caller of such a server expects, a line of searches
of which the first gets every plain result until it is completed, and
`Pipeline.Step` says which events keep to that. New searches may be issued at any
time, and responses that belong to no search may come at any time.

The session does what the line says: its searches in flight are those that wait, each
with the set of its numbers, and the others were handed that set
(`Pipeline.Models.step`). The set of a search does not depend on how its numbers were
ordered, repeated or divided (`PlainSearch.data_congr`).
-/

namespace ImapSearch

/-! ### Searches in line -/

/-- A search, and the numbers that its plain results listed. -/
structure PlainSearch where
  kind : SearchKind
  nums : List Nat := []

/-- What the search found. -/
def PlainSearch.data (search : PlainSearch) : SearchData :=
  { all := .ofNums search.nums, uid := search.kind.isUid }

/-- The tag of the search that is issued after `k` others. -/
def issuedTag (first : Char) (k : Nat) : Tag := (TagSupply.drop { first } k).tag

/-- The searches that were issued, in the order of issue. -/
structure Pipeline where
  /-- Those that are completed. -/
  done : List PlainSearch := []
  /-- Those that wait. Results belong to the first of them. -/
  waiting : List PlainSearch := []

namespace Pipeline

/-- How many searches were issued. -/
def issued (p : Pipeline) : Nat := p.done.length + p.waiting.length

/-- Whether a response belongs to no search: no result, not the end of the connection, and not
under a tag that was given out. -/
def IsNoise (first : Char) (p : Pipeline) : Response → Prop
  | .tagged tag _ _ => ∀ k < p.issued, tag ≠ issuedTag first k
  | .untagged (.search _) | .untagged (.extendedSearch _ _) | .untagged (.remark .bye _) => False
  | .untagged _ | .continuation _ => True

/-- What an event does to the line. -/
inductive Step (first : Char) : Pipeline → Session.Event → Pipeline → Prop
  /-- A search is put in line. -/
  | issue {done waiting : List PlainSearch} (command : Command) :
    Step first ⟨done, waiting⟩ (.issue command) ⟨done, waiting ++ [{ kind := command.kind }]⟩
  /-- The first search in line gets further numbers. -/
  | result {done rest : List PlainSearch} {kind : SearchKind} {found nums : List Nat}
      {input : Bytes} (h : Response.parse input = .ok (.untagged (.search nums))) :
    Step first ⟨done, ⟨kind, found⟩ :: rest⟩ (.receive input)
      ⟨done, ⟨kind, found ++ nums⟩ :: rest⟩
  /-- The first search in line is completed. -/
  | success {done rest : List PlainSearch} {search : PlainSearch} {input : Bytes} {text : String}
      (h : Response.parse input = .ok (.tagged (issuedTag first done.length) .ok text)) :
    Step first ⟨done, search :: rest⟩ (.receive input) ⟨done ++ [search], rest⟩
  /-- A response breaks the grammar or belongs to no search. -/
  | noise {p : Pipeline} {input : Bytes}
      (h : ∀ r, Response.parse input = .ok r → p.IsNoise first r) :
    Step first p (.receive input) p

/-- What events do to the line, one after the other. -/
inductive Run (first : Char) : Pipeline → List Session.Event → Pipeline → Prop
  | nil (p : Pipeline) : Run first p [] p
  | cons {p q r : Pipeline} {event : Session.Event} {events : List Session.Event}
      (hstep : Step first p event q) (hrun : Run first q events r) : Run first p (event :: events) r

end Pipeline

namespace Session

/-- The kind of the search that an event issues. -/
def Event.kind? : Event → Option SearchKind
  | .issue command => some command.kind
  | _ => none

/-- Whether a search is sent, if the event issues one. -/
def sends (s : Session) : Event → Bool
  | .issue command => (s.issue command).2.sent.isSome
  | _ => true

/-- Whether every search that the events issue is sent. -/
def sendsAll (s : Session) : List Event → Bool
  | [] => true
  | event :: events => s.sends event && (s.step event).sendsAll events

/-- A search that is sent is registered under the next tag. -/
theorem issue_of_sent {s : Session} {command : Command} (h : (s.issue command).2.sent.isSome) :
    (s.issue command).1 = { s with
      tags := s.tags.advance
      inFlight := s.inFlight.register s.tags.tag command.kind } := by
  unfold issue at h ⊢
  cases hrefused : s.refusedLiteral? command with
  | none => rfl
  | some size =>
    rw [hrefused] at h
    cases h

end Session

namespace Pipeline

/-! ### The session does what the line says -/

/-- The searches in line from the `n`-th on, as they are in flight. -/
def entriesFrom (first : Char) (n : Nat) (searches : List PlainSearch) : List Entry :=
  (searches.zipIdx n).map fun (search, k) => ⟨k, issuedTag first k, search.kind, search.data⟩

/-- The outcomes of searches that were completed, in the order of issue. -/
def deliveries (searches : List PlainSearch) : List (Nat × Outcome) :=
  searches.zipIdx.map fun (search, k) => (k, .ok search.data)

/-- What the line says of the searches in flight. -/
def inFlight (first : Char) (p : Pipeline) : InFlight :=
  { entries := entriesFrom first p.done.length p.waiting
    registered := p.issued
    delivered := deliveries p.done }

/-- What the line says of a session. -/
structure Models (first : Char) (p : Pipeline) (s : Session) : Prop where
  tags : s.tags = TagSupply.drop { first } p.issued
  inFlight : s.inFlight = p.inFlight first

variable {first : Char}

theorem entriesFrom_cons (n : Nat) (search : PlainSearch) (rest : List PlainSearch) :
    entriesFrom first n (search :: rest) =
      ⟨n, issuedTag first n, search.kind, search.data⟩ :: entriesFrom first (n + 1) rest := by
  simp [entriesFrom]

theorem entriesFrom_concat (n : Nat) (searches : List PlainSearch) (search : PlainSearch) :
    entriesFrom first n (searches ++ [search]) = entriesFrom first n searches ++
      [⟨n + searches.length, issuedTag first (n + searches.length), search.kind, search.data⟩] := by
  simp [entriesFrom, List.zipIdx_append]

theorem tag_of_mem_entriesFrom {n : Nat} {searches : List PlainSearch} {e : Entry}
    (h : e ∈ entriesFrom first n searches) :
    ∃ k < n + searches.length, e.tag = issuedTag first k := by
  obtain ⟨⟨search, k⟩, hk, rfl⟩ := List.mem_map.mp h
  have hlt := List.snd_lt_of_mem_zipIdx hk
  rw [Nat.add_comm] at hlt
  exact ⟨k, hlt, rfl⟩

theorem deliveries_concat (searches : List PlainSearch) (search : PlainSearch) :
    deliveries (searches ++ [search]) =
      deliveries searches ++ [(searches.length, .ok search.data)] := by
  simp [deliveries, List.zipIdx_append]

/-- Numbers are added to the first search in line. -/
theorem addNums_data (kind : SearchKind) (found nums : List Nat) :
    (PlainSearch.data ⟨kind, found⟩).addNums nums = PlainSearch.data ⟨kind, found ++ nums⟩ := by
  simp [PlainSearch.data, SearchData.addNums, SequenceSet.ofNums]

theorem advance_drop (supply : TagSupply) (n : Nat) :
    (supply.drop n).advance = supply.drop (n + 1) := by
  induction n generalizing supply with
  | zero => rfl
  | succ n ih => exact ih supply.advance

theorem models_empty : Models first {} (.withTags first) := ⟨rfl, rfl⟩

theorem Models.issue {done waiting : List PlainSearch} {s : Session}
    (h : Models first ⟨done, waiting⟩ s) {command : Command}
    (hsent : (s.issue command).2.sent.isSome) :
    Models first ⟨done, waiting ++ [{ kind := command.kind }]⟩ (s.issue command).1 := by
  rw [Session.issue_of_sent hsent, h.tags, h.inFlight]
  have hissued : issued ⟨done, waiting ++ [{ kind := command.kind }]⟩
      = issued ⟨done, waiting⟩ + 1 := by
    simp [issued, Nat.add_assoc]
  constructor
  · rw [hissued, ← advance_drop]
  · simp only [Pipeline.inFlight, InFlight.register, hissued, entriesFrom_concat]
    rfl

/-- Nothing but the searches in flight is changed by what a response says of searches. -/
theorem Models.apply {p q : Pipeline} {s : Session} (h : p.Models first s) {r : Response}
    (hissued : q.issued = p.issued)
    (hrun : (p.inFlight first).run r.op?.toList = q.inFlight first) :
    q.Models first (s.apply r) := by
  constructor
  · rw [s.tags_apply, h.tags, hissued]
  · rw [s.inFlight_apply, h.inFlight, hrun]

theorem Models.result {done rest : List PlainSearch} {kind : SearchKind} {found : List Nat}
    {s : Session} (h : Models first ⟨done, ⟨kind, found⟩ :: rest⟩ s) (nums : List Nat) :
    Models first ⟨done, ⟨kind, found ++ nums⟩ :: rest⟩ (s.apply (.untagged (.search nums))) := by
  refine h.apply rfl ?_
  simp only [Response.op?, Option.toList_some, InFlight.run_cons, InFlight.run_nil, InFlight.step,
    InFlight.accumulate?, Pipeline.inFlight, entriesFrom_cons, updateFirst?, addNums_data]
  rfl

theorem Models.success {done rest : List PlainSearch} {search : PlainSearch} {s : Session}
    (h : Models first ⟨done, search :: rest⟩ s) (text : String) :
    Models first ⟨done ++ [search], rest⟩
      (s.apply (.tagged (issuedTag first done.length) .ok text)) := by
  have hissued : issued ⟨done ++ [search], rest⟩ = issued ⟨done, search :: rest⟩ := by
    simp only [issued, List.length_append, List.length_cons, List.length_nil]
    omega
  refine h.apply hissued ?_
  simp [Response.op?, InFlight.step, InFlight.complete?, Pipeline.inFlight, entriesFrom_cons,
    takeFirst?, InFlight.deliver, deliveries_concat, hissued, Status.outcome]

/-- A response that belongs to no search changes none. -/
theorem Models.noise {p : Pipeline} {s : Session} (h : p.Models first s) {r : Response}
    (hr : p.IsNoise first r) : p.Models first (s.apply r) := by
  refine h.apply rfl ?_
  cases r with
  | tagged tag status text =>
    have hop : (InFlight.Op.complete tag status text).addressee? = some tag := rfl
    refine InFlight.step_of_forall_ne hop fun e he heq => ?_
    obtain ⟨k, hk, htag⟩ := tag_of_mem_entriesFrom he
    exact hr k hk (heq.symm.trans htag)
  | continuation text => rfl
  | untagged data =>
    cases data with
    | search nums => exact hr.elim
    | extendedSearch tag data => exact hr.elim
    | remark status text =>
      cases status with
      | bye => exact hr.elim
      | _ => rfl
    | _ => rfl

theorem Models.step {p q : Pipeline} {s : Session} (h : p.Models first s) {event : Session.Event}
    (hsent : s.sends event) (hstep : Step first p event q) : q.Models first (s.step event) := by
  cases hstep with
  | issue command => exact h.issue hsent
  | result hparse =>
    rw [Session.step, Session.receive_of_ok hparse]
    exact h.result _
  | success hparse =>
    rw [Session.step, Session.receive_of_ok hparse]
    exact h.success _
  | @noise _ input hnoise =>
    rw [Session.step]
    cases hparse : Response.parse input with
    | error e =>
      rw [Session.receive_of_error hparse]
      exact h
    | ok r =>
      rw [Session.receive_of_ok hparse]
      exact h.noise (hnoise r hparse)

theorem Models.run {p q : Pipeline} {s : Session} (h : p.Models first s)
    {events : List Session.Event} (hsent : s.sendsAll events) (hrun : Run first p events q) :
    q.Models first (s.run events) := by
  induction hrun generalizing s with
  | nil p => exact h
  | cons hstep hrun ih =>
    rw [Session.sendsAll, Bool.and_eq_true] at hsent
    exact ih (h.step hsent.1 hstep) hsent.2

/-! ### What the line itself keeps -/

/-- The searches in line are those that were issued, in the order of issue. -/
theorem Run.kinds {p q : Pipeline} {events : List Session.Event} (h : Run first p events q) :
    (q.done ++ q.waiting).map (·.kind) =
      (p.done ++ p.waiting).map (·.kind) ++ events.filterMap Session.Event.kind? := by
  induction h with
  | nil p => simp
  | cons hstep hrun ih =>
    rw [ih]
    cases hstep <;> simp [List.filterMap_cons, Session.Event.kind?]

/-- The numbers of the searches in line have 32 bits at most. -/
def Bounded (p : Pipeline) : Prop :=
  ∀ search ∈ p.done ++ p.waiting, ∀ n ∈ search.nums, n < numberBound

theorem Bounded.step {p q : Pipeline} (h : p.Bounded) {event : Session.Event}
    (hstep : Step first p event q) : q.Bounded := by
  cases hstep with
  | issue command =>
    intro search hsearch n hn
    rw [← List.append_assoc, List.mem_append, List.mem_singleton] at hsearch
    rcases hsearch with hsearch | rfl
    · exact h search hsearch n hn
    · cases hn
  | @result done rest kind found nums input hparse =>
    have hnums := Response.lt_of_parse_search hparse
    simp only [Bounded, List.forall_mem_append, List.forall_mem_cons] at h ⊢
    exact ⟨h.1, ⟨h.2.1, hnums⟩, h.2.2⟩
  | success hparse => simpa [Bounded] using h
  | noise hnoise => exact h

theorem Bounded.run {p q : Pipeline} (h : p.Bounded) {events : List Session.Event}
    (hrun : Run first p events q) : q.Bounded := by
  induction hrun with
  | nil p => exact h
  | cons hstep hrun ih => exact ih (h.step hstep)

/-! ### What the callers get -/

theorem outcomes_inFlight {p : Pipeline} {k : Nat} {search : PlainSearch}
    (h : p.done[k]? = some search) : (p.inFlight first).outcomes k = [.ok search.data] := by
  -- The searches from the `n`-th on were handed their outcomes under the numbers from `n` on.
  have hfrom : ∀ (searches : List PlainSearch) (n j : Nat), searches[j]? = some search →
      (((searches.zipIdx n).map fun (s, i) => (i, (.ok s.data : Outcome))).filter
        fun d => d.1 = n + j).map Prod.snd = [.ok search.data] := by
    intro searches
    induction searches with
    | nil => simp
    | cons s rest ih =>
      intro n j hj
      rw [List.zipIdx_cons, List.map_cons]
      cases j with
      | zero =>
        obtain rfl : s = search := Option.some.inj hj
        have hrest : ((rest.zipIdx (n + 1)).map fun (s, i) => (i, (.ok s.data : Outcome))).filter
            (fun d => d.1 = n + 0) = [] := by
          refine List.filter_eq_nil_iff.mpr fun d hd => ?_
          obtain ⟨⟨s, i⟩, hi, rfl⟩ := List.mem_map.mp hd
          have hle := List.le_snd_of_mem_zipIdx hi
          simp only [decide_eq_true_eq]
          omega
        rw [List.filter_cons_of_pos (by simp), hrest]
        rfl
      | succ j =>
        have hrest := ih (n + 1) j hj
        have hshift : n + 1 + j = n + (j + 1) := by omega
        rw [hshift] at hrest
        rw [List.filter_cons_of_neg (by simp)]
        exact hrest
  have hdone := hfrom p.done 0 k h
  rw [Nat.zero_add] at hdone
  exact hdone

end Pipeline

namespace PlainSearch

/-- A search found the numbers of its results, zero apart. -/
theorem contains_data {search : PlainSearch} (h : ∀ n ∈ search.nums, n < numberBound) (n : Nat) :
    search.data.all.contains n ↔ n ∈ search.nums ∧ n ≠ 0 := by
  rw [data, SequenceSet.contains_ofNums, isNumber_iff]
  constructor
  · rintro ⟨hnumber, hn⟩
    exact ⟨hn, by omega⟩
  · rintro ⟨hn, hzero⟩
    have hlt := h n hn
    simp only [numberBound, maxNumber] at hlt ⊢
    exact ⟨by omega, hn⟩

/-- What a search found is determined by the numbers of its results, zero apart. -/
theorem data_congr {search : PlainSearch} {nums : List Nat}
    (h : ∀ n, n ≠ 0 → (n ∈ nums ↔ n ∈ search.nums)) : search.data = data ⟨search.kind, nums⟩ := by
  have hall : SequenceSet.ofNums search.nums = SequenceSet.ofNums nums := by
    refine SequenceSet.ofNums_congr fun n hn => (h n ?_).symm
    have := (isNumber_iff.mp hn).1
    omega
  rw [data, data, hall]

end PlainSearch

namespace Session

/-- Searches in line each get their own numbers. Whatever was issued and received in between, the
caller of the `k`-th search, once it is completed, has got its data and nothing else: the numbers of
its own results without zero, in a set that is the same for any other list of those numbers, by UID
if the search asked for UIDs, and no other field. -/
theorem run_pipeline {first : Char} {events : List Event} {p : Pipeline}
    (hsent : (withTags first).sendsAll events) (hrun : Pipeline.Run first {} events p) {k : Nat}
    {search : PlainSearch} (hdone : p.done[k]? = some search) :
    (events.filterMap Event.kind?)[k]? = some search.kind ∧
    ∃ data, ((withTags first).run events).inFlight.outcomes k = [.ok data] ∧
      (∀ n, data.all.contains n ↔ n ∈ search.nums ∧ n ≠ 0) ∧
      data.uid = search.kind.isUid ∧ data.min = none ∧ data.max = none ∧ data.count = none ∧
      ∀ nums, (∀ n, n ≠ 0 → (n ∈ nums ↔ n ∈ search.nums)) →
        data = { all := .ofNums nums, uid := search.kind.isUid } := by
  have hlt : k < p.done.length := (List.getElem?_eq_some_iff.mp hdone).1
  have hkind : (events.filterMap Event.kind?)[k]? = some search.kind := by
    have hkinds := hrun.kinds
    rw [List.append_nil, List.map_nil, List.nil_append] at hkinds
    rw [← hkinds, List.getElem?_map, List.getElem?_append_left hlt, hdone]
    rfl
  have hbounded : ∀ n ∈ search.nums, n < numberBound := by
    have hempty : Pipeline.Bounded {} := by
      simp [Pipeline.Bounded]
    exact hempty.run hrun search (List.mem_append_left _ (List.mem_of_getElem? hdone))
  refine ⟨hkind, search.data, ?_, search.contains_data hbounded, rfl, rfl, rfl, rfl, ?_⟩
  · rw [(Pipeline.models_empty.run hsent hrun).inFlight]
    exact Pipeline.outcomes_inFlight hdone
  · exact fun nums h => PlainSearch.data_congr h

/-- The first of two searches gets its numbers in two results, with the second search issued between
them and a response under a tag that was not given out. -/
theorem run_pipeline_twoSearches :
    ∃ data, ((withTags 'A').run
      [.issue ⟨.everything, [], .search⟩, .receive (utf8 "* SEARCH 5 0 2\r\n"),
        .issue ⟨.everything, [], .uidSearch⟩, .receive (utf8 "A0009 OK stray\r\n"),
        .receive (utf8 "* SEARCH 2\r\n"), .receive (utf8 "A0000 OK done\r\n")]).inFlight.outcomes 0
        = [.ok data] ∧
      ∀ n, data.all.contains n ↔ n ∈ [5, 0, 2, 2] ∧ n ≠ 0 := by
  have hfirst : Response.parse (utf8 "* SEARCH 5 0 2\r\n")
      = .ok (.untagged (.search [5, 0, 2])) := by
    decide +kernel
  have hstray : Response.parse (utf8 "A0009 OK stray\r\n")
      = .ok (.tagged ⟨"A0009"⟩ .ok "stray") := by
    decide +kernel
  have hsecond : Response.parse (utf8 "* SEARCH 2\r\n") = .ok (.untagged (.search [2])) := by
    decide +kernel
  have hdone : Response.parse (utf8 "A0000 OK done\r\n")
      = .ok (.tagged (issuedTag 'A' 0) .ok "done") := by
    decide +kernel
  have hnoise : ∀ r, Response.parse (utf8 "A0009 OK stray\r\n") = .ok r →
      Pipeline.IsNoise 'A' ⟨[], [⟨.search, [5, 0, 2]⟩, ⟨.uidSearch, []⟩]⟩ r := by
    rintro r hr
    cases hstray.symm.trans hr
    show ∀ k < 2, (⟨"A0009"⟩ : Tag) ≠ issuedTag 'A' k
    decide +kernel
  have hrun : Pipeline.Run 'A' {} _ ⟨[⟨.search, [5, 0, 2, 2]⟩], [⟨.uidSearch, []⟩]⟩ :=
    .cons (.issue ⟨.everything, [], .search⟩) <| .cons (.result hfirst) <|
      .cons (.issue ⟨.everything, [], .uidSearch⟩) <| .cons (.noise hnoise) <|
      .cons (.result hsecond) <| .cons (.success hdone) <| .nil _
  obtain ⟨-, data, houtcome, hcontains, -⟩ := run_pipeline (by decide +kernel) hrun (k := 0) rfl
  exact ⟨data, houtcome, hcontains⟩

end Session

end ImapSearch
