import ImapSearch.InFlight
import Mathlib.Data.List.Basic

/-!
# ImapSearch.Proofs.InFlight.Run

**Runs of the searches in flight.** An `Op` is something that can happen to the
searches in flight, and a run is any sequence of them. What a single one does is
said here once, so that no later proof has to look at the operations again:

* `step_eq` lists what becomes of every part of the state. An operation hands
  outcomes to callers (`sends`), and those reach the callers that still wait.
* No search gets lost: the searches in flight before an operation, and those that
  it registers, are the searches in flight after it and those that it hands an
  outcome (`ids_step_perm`).
* The searches in flight keep their order, their tags and their kinds
  (`labels_step_sublist`).
-/

namespace ImapSearch

/-! ### The first element with a property -/

theorem takeFirst?_eq_some {α : Type} {p : α → Bool} {as others : List α} {a : α}
    (h : takeFirst? p as = some (a, others)) :
    ∃ before after, as = before ++ a :: after ∧ others = before ++ after := by
  induction as generalizing others with
  | nil => cases h
  | cons b rest ih =>
    rw [takeFirst?] at h
    split at h
    · cases h
      exact ⟨[], _, rfl, rfl⟩
    · simp only [Option.map_eq_some_iff, Prod.exists, Prod.mk.injEq] at h
      obtain ⟨_, others, h, rfl, rfl⟩ := h
      obtain ⟨before, after, rfl, rfl⟩ := ih h
      exact ⟨b :: before, after, rfl, rfl⟩

theorem updateFirst?_eq_some {α : Type} {p : α → Bool} {f : α → α} {as bs : List α}
    (h : updateFirst? p f as = some bs) :
    ∃ before a after, as = before ++ a :: after ∧ bs = before ++ f a :: after := by
  induction as generalizing bs with
  | nil => cases h
  | cons b rest ih =>
    rw [updateFirst?] at h
    split at h
    · cases h
      exact ⟨[], b, rest, rfl, rfl⟩
    · obtain ⟨others, hrest, rfl⟩ := Option.map_eq_some_iff.mp h
      obtain ⟨before, a, after, rfl, rfl⟩ := ih hrest
      exact ⟨b :: before, a, after, rfl, rfl⟩

namespace InFlight

/-! ### Operations -/

/-- What can happen to the searches in flight. -/
inductive Op
  | register (tag : Tag) (kind : SearchKind)
  | refuse (error : Error)
  | accumulate (nums : List Nat)
  | replace (correlator : Option Tag) (data : SearchData)
  | complete (tag : Tag) (status : Status) (text : String)
  | failAll (error : Error)
  | close
  | abandon (id : Nat)

/-- Whether the operation is one of a caller who no longer waits. -/
def Op.isAbandon : Op → Bool
  | .abandon _ => true
  | _ => false

/-- One operation. Only a search that was registered has a caller who can abandon it. -/
def step (s : InFlight) : Op → InFlight
  | .register tag kind => s.register tag kind
  | .refuse error => s.refuse error
  | .accumulate nums => (s.accumulate? nums).getD s
  | .replace correlator data => (s.replace? correlator data).getD s
  | .complete tag status text => (s.complete? tag status text).getD s
  | .failAll error => s.failAll error
  | .close => s.close
  | .abandon id => if id < s.registered then s.abandon id else s

/-- Operations one after the other. -/
def run (s : InFlight) (ops : List Op) : InFlight := ops.foldl step s

@[simp] theorem run_nil (s : InFlight) : s.run [] = s := rfl

@[simp] theorem run_cons (s : InFlight) (op : Op) (ops : List Op) :
    s.run (op :: ops) = (s.step op).run ops := rfl

theorem run_append (s : InFlight) (ops more : List Op) :
    s.run (ops ++ more) = (s.run ops).run more :=
  List.foldl_append

/-- The numbers of the searches in flight. -/
def ids (s : InFlight) : List Nat := s.entries.map Entry.id

/-- The outcomes that the caller of a search was handed. -/
def outcomes (s : InFlight) (id : Nat) : List Outcome :=
  (s.delivered.filter fun d => d.1 = id).map Prod.snd

/-! ### Deliveries -/

theorem deliver_eq (s : InFlight) (id : Nat) (outcome : Outcome) :
    s.deliver id outcome = { s with
      delivered := s.delivered ++ [(id, outcome)].filter fun d => d.1 ∉ s.abandoned } := by
  unfold deliver
  split
  next h => simp [h]
  next h => simp [h]

theorem failAll_eq (s : InFlight) (error : Error) :
    s.failAll error = { s with
      entries := []
      delivered := s.delivered ++ (s.entries.map fun e => (e.id, .error error)).filter
        fun d => d.1 ∉ s.abandoned } := by
  have foldl_eq : ∀ (es : List Entry) (t : InFlight),
      es.foldl (fun s e => s.deliver e.id (.error error)) t = { t with
        delivered := t.delivered ++ (es.map fun e => (e.id, .error error)).filter
          fun d => d.1 ∉ t.abandoned } := by
    intro es
    induction es with
    | nil => simp
    | cons e es ih =>
      intro t
      have hcons : (e :: es).map (fun e => (e.id, (.error error : Outcome)))
          = [(e.id, .error error)] ++ es.map fun e => (e.id, .error error) := rfl
      rw [List.foldl_cons, ih, deliver_eq, hcons, List.filter_append]
      simp only [List.append_assoc]
  exact foldl_eq s.entries { s with entries := [] }

/-! ### What an operation does -/

/-- What an operation hands to callers, whether or not they wait. -/
def sends (s : InFlight) : Op → List (Nat × Outcome)
  | .register _ _ => if s.closed then [(s.registered, .error .connectionLost)] else []
  | .refuse error => [(s.registered, .error error)]
  | .complete tag status text =>
    match takeFirst? (fun e => e.tag = tag) s.entries with
    | none => []
    | some (e, _) => [(e.id, status.outcome text e.data)]
  | .failAll error => s.entries.map fun e => (e.id, .error error)
  | .close => s.entries.map fun e => (e.id, .error .connectionLost)
  | .accumulate _ | .replace _ _ | .abandon _ => []

/-- The searches in flight after an operation. -/
def entriesAfter (s : InFlight) : Op → List Entry
  | .register tag kind =>
    if s.closed then s.entries
    else s.entries ++ [⟨s.registered, tag, kind, { uid := kind.isUid }⟩]
  | .accumulate nums =>
    (updateFirst? (fun _ => true) (fun e => { e with data := e.data.addNums nums })
      s.entries).getD s.entries
  | .replace correlator data =>
    (updateFirst? (fun e => correlator.all (· = e.tag)) (fun e => { e with data })
      s.entries).getD s.entries
  | .complete tag _ _ =>
    match takeFirst? (fun e => e.tag = tag) s.entries with
    | none => s.entries
    | some (_, others) => others
  | .failAll _ | .close => []
  | .refuse _ | .abandon _ => s.entries

/-- How many searches an operation registers. -/
def Op.registers : Op → Nat
  | .register _ _ | .refuse _ => 1
  | _ => 0

/-- Whether an operation ends the connection. -/
def Op.isClose : Op → Bool
  | .close => true
  | _ => false

/-- The searches whose callers no longer wait after an operation. -/
def abandonedAfter (s : InFlight) : Op → List Nat
  | .abandon id => if id < s.registered then id :: s.abandoned else s.abandoned
  | _ => s.abandoned

/-- What an operation does. -/
theorem step_eq (s : InFlight) (op : Op) :
    s.step op =
      { entries := s.entriesAfter op
        closed := s.closed || op.isClose
        registered := s.registered + op.registers
        delivered := s.delivered ++ (s.sends op).filter fun d => d.1 ∉ s.abandoned
        abandoned := s.abandonedAfter op } := by
  obtain ⟨entries, closed, registered, delivered, abandoned⟩ := s
  cases op with
  | register tag kind =>
    cases closed with
    | true => simp [step, register, deliver_eq, entriesAfter, sends, abandonedAfter, Op.registers]
    | false => simp [step, register, entriesAfter, sends, abandonedAfter, Op.registers, Op.isClose]
  | refuse error =>
    simp [step, refuse, deliver_eq, entriesAfter, sends, abandonedAfter, Op.registers, Op.isClose]
  | accumulate nums =>
    simp only [step, accumulate?, entriesAfter, sends, abandonedAfter, Op.registers, Op.isClose]
    cases updateFirst? _ _ entries <;> simp
  | replace correlator data =>
    simp only [step, replace?, entriesAfter, sends, abandonedAfter, Op.registers, Op.isClose]
    cases updateFirst? _ _ entries <;> simp
  | complete tag status text =>
    simp only [step, complete?, entriesAfter, sends, abandonedAfter, Op.registers, Op.isClose]
    cases takeFirst? _ entries with
    | none => simp
    | some taken => simp [deliver_eq]
  | failAll error =>
    simp [step, failAll_eq, entriesAfter, sends, abandonedAfter, Op.registers, Op.isClose]
  | close =>
    simp [step, close, failAll_eq, entriesAfter, sends, abandonedAfter, Op.registers, Op.isClose]
  | abandon id =>
    simp only [step, abandon, entriesAfter, sends, abandonedAfter, Op.registers, Op.isClose]
    split <;> simp

/-! ### The searches in flight -/

/-- The searches in flight without what they found. -/
def labels (s : InFlight) : List (Nat × Tag × SearchKind) :=
  s.entries.map fun e => (e.id, e.tag, e.kind)

theorem map_fst_labels (s : InFlight) : s.labels.map Prod.fst = s.ids := by
  simp [labels, ids, Function.comp_def]

/-- The search that an operation puts in flight, with the number that it gets. -/
def Op.newLabels (n : Nat) : Op → List (Nat × Tag × SearchKind)
  | .register tag kind => [(n, tag, kind)]
  | _ => []

/-- Nothing but the data of a search changes while it is in flight. -/
theorem labels_of_updateFirst? {p : Entry → Bool} {data : Entry → SearchData} (es : List Entry) :
    ((updateFirst? p (fun e => { e with data := data e }) es).getD es).map
        (fun e => (e.id, e.tag, e.kind)) = es.map fun e => (e.id, e.tag, e.kind) := by
  cases h : updateFirst? p (fun e => { e with data := data e }) es with
  | none => rfl
  | some es' =>
    obtain ⟨before, e, after, rfl, rfl⟩ := updateFirst?_eq_some h
    simp

/-- The searches in flight keep their order, and a new one comes last. -/
theorem labels_step_sublist (s : InFlight) (op : Op) :
    (s.step op).labels.Sublist (s.labels ++ op.newLabels s.registered) := by
  rw [step_eq, labels]
  cases op with
  | register tag kind =>
    simp only [entriesAfter, Op.newLabels]
    split
    · exact List.sublist_append_left _ _
    · simp [labels]
  | accumulate nums =>
    simp only [entriesAfter, labels_of_updateFirst?]
    exact List.sublist_append_left _ _
  | replace correlator data =>
    simp only [entriesAfter, labels_of_updateFirst?]
    exact List.sublist_append_left _ _
  | complete tag status text =>
    simp only [entriesAfter, Op.newLabels, List.append_nil]
    cases h : takeFirst? _ s.entries with
    | none => exact List.Sublist.refl _
    | some taken =>
      obtain ⟨e, others⟩ := taken
      obtain ⟨before, after, hs, rfl⟩ := takeFirst?_eq_some h
      rw [labels, hs]
      exact ((List.sublist_cons_self _ _).append_left before).map _
  | failAll error => exact List.nil_sublist _
  | close => exact List.nil_sublist _
  | refuse error => exact List.sublist_append_left _ _
  | abandon id => exact List.sublist_append_left _ _

/-- No search gets lost: those in flight and those that an operation registers are those in flight
after it and those that it hands an outcome. -/
theorem ids_step_perm (s : InFlight) (op : Op) :
    ((s.step op).ids ++ (s.sends op).map Prod.fst).Perm
      (s.ids ++ List.range' s.registered op.registers) := by
  rw [← map_fst_labels, ← map_fst_labels, step_eq, labels, labels]
  cases op with
  | register tag kind =>
    simp only [entriesAfter, sends, Op.registers, List.range'_one]
    split
    · exact List.Perm.refl _
    · simp
  | accumulate nums =>
    simp only [entriesAfter, labels_of_updateFirst?]
    exact List.Perm.refl _
  | replace correlator data =>
    simp only [entriesAfter, labels_of_updateFirst?]
    exact List.Perm.refl _
  | complete tag status text =>
    simp only [entriesAfter, sends, Op.registers, List.range'_zero, List.append_nil]
    cases h : takeFirst? _ s.entries with
    | none => simp
    | some taken =>
      obtain ⟨e, others⟩ := taken
      obtain ⟨before, after, hs, rfl⟩ := takeFirst?_eq_some h
      simp only [hs, List.map_append, List.map_cons, List.map_nil, List.append_assoc]
      exact (List.perm_append_singleton _ _).append_left _
  | failAll error => simp [entriesAfter, sends, Op.registers, Function.comp_def]
  | close => simp [entriesAfter, sends, Op.registers, Function.comp_def]
  | refuse error => simp [entriesAfter, sends, Op.registers]
  | abandon id => simp [entriesAfter, sends, Op.registers]

end InFlight

end ImapSearch
