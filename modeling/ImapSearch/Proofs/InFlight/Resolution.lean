import ImapSearch.Proofs.InFlight.Run
import Mathlib.Data.List.Nodup

/-!
# ImapSearch.Proofs.InFlight.Resolution

**Every search gets one outcome.** At every point of a run the searches that were
registered fall into two parts: those in flight, which have no outcome, and the
others, which have exactly one. As long as every caller waits, this is one
statement about numbers (`Conserved`): the numbers in flight and the numbers that
were handed an outcome are, in some order, all numbers from zero on.

A caller who does not wait changes nothing for anybody else. So a run is compared
with the same run in which every caller waits (`Mirrors`).
-/

namespace ImapSearch.InFlight

open scoped List

/-! ### Runs in which every caller waits -/

/-- Every caller waits, and every search is in flight or was handed one outcome. -/
structure Conserved (s : InFlight) : Prop where
  nobody : s.abandoned = []
  perm : (s.ids ++ s.delivered.map Prod.fst).Perm (List.range s.registered)

theorem conserved_empty : Conserved {} := ⟨rfl, List.Perm.refl _⟩

theorem Conserved.step {s : InFlight} (h : s.Conserved) {op : Op} (hop : ¬ op.isAbandon) :
    (s.step op).Conserved := by
  have hdelivered : (s.step op).delivered = s.delivered ++ s.sends op := by
    simp [step_eq, h.nobody]
  have hregistered : (s.step op).registered = s.registered + op.registers := by
    rw [step_eq]
  constructor
  · rw [step_eq]
    cases op with
    | abandon id => exact absurd rfl hop
    | _ => exact h.nobody
  · rw [hdelivered, hregistered, List.map_append]
    -- What was delivered now is put beside the searches in flight, from which it was taken.
    calc (s.step op).ids ++ (s.delivered.map Prod.fst ++ (s.sends op).map Prod.fst)
      _ ~ (s.step op).ids ++ (s.sends op).map Prod.fst ++ s.delivered.map Prod.fst := by
        rw [List.append_assoc]
        exact List.perm_append_comm.append_left _
      _ ~ s.ids ++ List.range' s.registered op.registers ++ s.delivered.map Prod.fst :=
        (s.ids_step_perm op).append_right _
      _ ~ s.ids ++ s.delivered.map Prod.fst ++ List.range' s.registered op.registers := by
        rw [List.append_assoc, List.append_assoc]
        exact List.perm_append_comm.append_left _
      _ ~ List.range s.registered ++ List.range' s.registered op.registers :=
        h.perm.append_right _
      _ = List.range (s.registered + op.registers) := by
        rw [List.range_eq_range', List.range_eq_range', ← List.range'_append_1, Nat.zero_add]

theorem Conserved.run {s : InFlight} (h : s.Conserved) {ops : List Op}
    (hops : ∀ op ∈ ops, ¬ op.isAbandon) : (s.run ops).Conserved := by
  induction ops generalizing s with
  | nil => exact h
  | cons op ops ih =>
    rw [List.forall_mem_cons] at hops
    exact ih (h.step hops.1) hops.2

theorem length_outcomes (s : InFlight) (id : Nat) :
    (s.outcomes id).length = (s.delivered.map Prod.fst).count id := by
  rw [outcomes, List.length_map, List.count_eq_countP, List.countP_map,
    List.countP_eq_length_filter]
  congr 1

/-- A search is in flight or has an outcome, and never both. -/
theorem Conserved.count {s : InFlight} (h : s.Conserved) (id : Nat) :
    s.ids.count id + (s.outcomes id).length = if id < s.registered then 1 else 0 := by
  have hcount := h.perm.count_eq id
  rw [List.count_append, ← length_outcomes] at hcount
  rw [hcount, List.count_range]

theorem Conserved.outcomes_of_mem {s : InFlight} (h : s.Conserved) {id : Nat} (hid : id ∈ s.ids) :
    id < s.registered ∧ s.outcomes id = [] := by
  have hcount := h.count id
  have hpos := List.count_pos_iff.mpr hid
  rw [← List.length_eq_zero_iff]
  split at hcount <;> omega

theorem Conserved.outcomes_of_not_mem {s : InFlight} (h : s.Conserved) {id : Nat}
    (hlt : id < s.registered) (hid : id ∉ s.ids) : ∃ outcome, s.outcomes id = [outcome] := by
  have hcount := h.count id
  rw [List.count_eq_zero.mpr hid, if_pos hlt, Nat.zero_add] at hcount
  exact List.length_eq_one_iff.mp hcount

/-! ### Callers who do not wait -/

/-- The same searches, with callers in `s` who no longer wait, while all of them wait in `t`. -/
structure Mirrors (s t : InFlight) : Prop where
  entries : s.entries = t.entries
  closed : s.closed = t.closed
  registered : s.registered = t.registered
  nobody : t.abandoned = []
  /-- Only a caller whose search was registered can have gone. -/
  known : ∀ id ∈ s.abandoned, id < s.registered
  /-- Those who have gone may have missed an outcome. -/
  sublist : s.delivered.Sublist t.delivered
  /-- The others have missed none. -/
  waiting : s.delivered.filter (fun d => d.1 ∉ s.abandoned)
    = t.delivered.filter fun d => d.1 ∉ s.abandoned

theorem mirrors_empty : Mirrors {} {} :=
  ⟨rfl, rfl, rfl, rfl, by simp, List.Sublist.refl _, rfl⟩

theorem Mirrors.step {s t : InFlight} (h : s.Mirrors t) {op : Op} (hop : ¬ op.isAbandon) :
    (s.step op).Mirrors (t.step op) := by
  have hsends : s.sends op = t.sends op := by
    cases op <;> simp only [sends, h.entries, h.closed, h.registered]
  have hentries : s.entriesAfter op = t.entriesAfter op := by
    cases op <;> simp only [entriesAfter, h.entries, h.closed, h.registered]
  have habandoned : s.abandonedAfter op = s.abandoned ∧ t.abandonedAfter op = [] := by
    cases op with
    | abandon id => exact absurd rfl hop
    | _ => exact ⟨rfl, h.nobody⟩
  rw [step_eq, step_eq, habandoned.1, habandoned.2, h.nobody]
  constructor
  · exact hentries
  · simp only [h.closed]
  · simp only [h.registered]
  · rfl
  · exact fun id hid => Nat.lt_add_right _ (h.known id hid)
  · simp only [List.not_mem_nil, not_false_eq_true, decide_true, List.filter_true, hsends]
    exact h.sublist.append List.filter_sublist
  · simpa [List.filter_append, hsends] using h.waiting

/-- A caller who goes away leaves everything as it is but for itself. -/
theorem Mirrors.abandon {s t : InFlight} (h : s.Mirrors t) (id : Nat) :
    (s.step (.abandon id)).Mirrors t := by
  by_cases hid : id < s.registered
  · have hstep : s.step (.abandon id) = { s with abandoned := id :: s.abandoned } := if_pos hid
    -- To look past more callers is to look past some of them first.
    have further : ∀ ds : List (Nat × Outcome),
        ds.filter (fun d => d.1 ∉ id :: s.abandoned) =
          (ds.filter fun d => d.1 ∉ s.abandoned).filter fun d => d.1 ≠ id := by
      intro ds
      rw [List.filter_filter]
      congr 1
      funext d
      simp [not_or]
    rw [hstep]
    refine ⟨h.entries, h.closed, h.registered, h.nobody, ?_, h.sublist, ?_⟩
    · exact List.forall_mem_cons.mpr ⟨hid, h.known⟩
    · rw [further, further, h.waiting]
  · have hstep : s.step (.abandon id) = s := if_neg hid
    rw [hstep]
    exact h

theorem Mirrors.run {s t : InFlight} (h : s.Mirrors t) (ops : List Op) :
    (s.run ops).Mirrors (t.run (ops.filter fun op => !op.isAbandon)) := by
  induction ops generalizing s t with
  | nil => exact h
  | cons op ops ih =>
    by_cases hop : op.isAbandon
    · cases op with
      | abandon id => exact ih (h.abandon id)
      | _ => cases hop
    · rw [List.filter_cons_of_pos (by simpa using hop)]
      exact ih (h.step hop)

theorem Mirrors.outcomes {s t : InFlight} (h : s.Mirrors t) {id : Nat} (hid : id ∉ s.abandoned) :
    s.outcomes id = t.outcomes id := by
  -- The outcomes of one who waits are among the outcomes of those who wait.
  have restrict : ∀ ds : List (Nat × Outcome), ds.filter (fun d => d.1 = id) =
      (ds.filter fun d => d.1 ∉ s.abandoned).filter fun d => d.1 = id := by
    intro ds
    rw [List.filter_filter]
    refine List.filter_congr fun d _ => ?_
    by_cases hd : d.1 = id
    · simp [hd, hid]
    · simp [hd]
  rw [InFlight.outcomes, InFlight.outcomes, restrict, h.waiting, ← restrict]

theorem Mirrors.outcomes_sublist {s t : InFlight} (h : s.Mirrors t) (id : Nat) :
    (s.outcomes id).Sublist (t.outcomes id) :=
  (h.sublist.filter _).map _

/-! ### What was delivered stays delivered -/

theorem delivered_prefix_step (s : InFlight) (op : Op) :
    s.delivered <+: (s.step op).delivered := by
  rw [step_eq]
  exact List.prefix_append _ _

theorem delivered_prefix_run (s : InFlight) (ops : List Op) :
    s.delivered <+: (s.run ops).delivered := by
  induction ops generalizing s with
  | nil => exact List.prefix_rfl
  | cons op ops ih => exact (s.delivered_prefix_step op).trans (ih _)

/-! ### The end of the connection -/

theorem closed_run {s : InFlight} (h : s.closed) (ops : List Op) : (s.run ops).closed := by
  induction ops generalizing s with
  | nil => exact h
  | cons op ops ih =>
    refine ih ?_
    rw [step_eq]
    simp [h]

theorem closed_run_of_mem {s : InFlight} {ops : List Op} (h : .close ∈ ops) :
    (s.run ops).closed := by
  obtain ⟨before, after, rfl⟩ := List.append_of_mem h
  rw [run_append, run_cons]
  refine closed_run ?_ after
  rw [step_eq]
  simp [Op.isClose]

/-- After the connection has ended no search is in flight. -/
def Drained (s : InFlight) : Prop := s.closed → s.entries = []

theorem Drained.step {s : InFlight} (h : s.Drained) (op : Op) : (s.step op).Drained := by
  intro hclosed
  rw [step_eq] at hclosed ⊢
  simp only [Bool.or_eq_true] at hclosed
  rcases hclosed with hclosed | hclose
  · have hempty : s.entries = [] := h hclosed
    cases op <;> simp [entriesAfter, hclosed, hempty, updateFirst?, takeFirst?]
  · cases op with
    | close => rfl
    | _ => cases hclose

theorem Drained.run {s : InFlight} (h : s.Drained) (ops : List Op) : (s.run ops).Drained := by
  induction ops generalizing s with
  | nil => exact h
  | cons op ops ih => exact ih (h.step op)

/-! ### Registrations -/

/-- The searches that operations register, each with its number, the first of which is `n`. -/
def registrations (n : Nat) : List Op → List (Nat × Tag × SearchKind)
  | [] => []
  | op :: ops => op.newLabels n ++ registrations (n + op.registers) ops

theorem labels_run_sublist (s : InFlight) (ops : List Op) :
    (s.run ops).labels.Sublist (s.labels ++ registrations s.registered ops) := by
  induction ops generalizing s with
  | nil => simp [registrations]
  | cons op ops ih =>
    have hregistered : (s.step op).registered = s.registered + op.registers := by
      rw [step_eq]
    have htail := ih (s.step op)
    rw [hregistered] at htail
    rw [run_cons, registrations, ← List.append_assoc]
    exact htail.trans ((s.labels_step_sublist op).append_right _)

/-- How many searches operations register. -/
def registeredBy : List Op → Nat
  | [] => 0
  | op :: ops => op.registers + registeredBy ops

theorem registered_run (s : InFlight) (ops : List Op) :
    (s.run ops).registered = s.registered + registeredBy ops := by
  induction ops generalizing s with
  | nil => rfl
  | cons op ops ih =>
    have hregistered : (s.step op).registered = s.registered + op.registers := by
      rw [step_eq]
    rw [run_cons, ih, hregistered, registeredBy, Nat.add_assoc]

/-- Registrations are numbered one after the other. -/
theorem registrations_sublist (n : Nat) (ops : List Op) :
    ((registrations n ops).map Prod.fst).Sublist (List.range' n (registeredBy ops)) := by
  induction ops generalizing n with
  | nil => exact List.nil_sublist _
  | cons op ops ih =>
    have hhead : ((op.newLabels n).map Prod.fst).Sublist (List.range' n op.registers) := by
      cases op with
      | register tag kind => exact List.Sublist.refl _
      | _ => exact List.nil_sublist _
    rw [registrations, registeredBy, List.map_append, ← List.range'_append_1]
    exact hhead.append (ih _)

/-- Elements without repetitions are those of the longer list that occur. -/
theorem eq_filter_of_sublist {α β : Type} [DecidableEq β] {f : α → β} {as bs : List α}
    (h : as.Sublist bs) (hn : (bs.map f).Nodup) : as = bs.filter fun b => f b ∈ as.map f := by
  induction h with
  | slnil => rfl
  | @cons as bs b h ih =>
    rw [List.map_cons, List.nodup_cons] at hn
    have hb : f b ∉ as.map f := fun hmem => hn.1 ((h.map f).subset hmem)
    rw [List.filter_cons_of_neg (by simpa using hb)]
    exact ih hn.2
  | @cons_cons as bs a h ih =>
    rw [List.map_cons, List.nodup_cons] at hn
    rw [List.filter_cons_of_pos (by simp)]
    congr 1
    refine (ih hn.2).trans (List.filter_congr fun b hb => ?_)
    have hne : f b ≠ f a := fun he => hn.1 (he ▸ List.mem_map_of_mem hb)
    simp only [List.map_cons, List.mem_cons, hne, false_or]

/-! ### Every search gets one outcome -/

/-- What has become of the searches that were registered: `s` is where a run stands, and `t` where
it would stand if every caller waited. -/
structure Accounted (searches : List (Nat × Tag × SearchKind)) (s t : InFlight) : Prop where
  /-- Callers who have gone make no difference to the searches in flight. -/
  entries : s.entries = t.entries
  closed : s.closed = t.closed
  registered : s.registered = t.registered
  /-- They make no difference to the outcomes of others. -/
  outcomes : ∀ id ∉ s.abandoned, s.outcomes id = t.outcomes id
  /-- A search in flight has no outcome. -/
  pending : ∀ id ∈ s.ids, s.outcomes id = [] ∧ t.outcomes id = []
  /-- Any other search has exactly one, unless its caller went before it came. -/
  resolved : ∀ id < s.registered, id ∉ s.ids → ∃ outcome, t.outcomes id = [outcome] ∧
    (s.outcomes id = [outcome] ∨ id ∈ s.abandoned ∧ s.outcomes id = [])
  /-- The searches in flight are those without an outcome, in the order of registration. -/
  order : s.labels = searches.filter fun label => (t.outcomes label.1).isEmpty

theorem Mirrors.accounted {s t : InFlight} (h : s.Mirrors t) (ht : t.Conserved)
    {searches : List (Nat × Tag × SearchKind)} (hlabels : s.labels.Sublist searches)
    (hsearches : (searches.map Prod.fst).Sublist (List.range s.registered)) :
    Accounted searches s t := by
  have hids : s.ids = t.ids := by
    rw [ids, ids, h.entries]
  have pending : ∀ id ∈ s.ids, t.outcomes id = [] := by
    intro id hid
    rw [hids] at hid
    exact (ht.outcomes_of_mem hid).2
  have resolved : ∀ id < s.registered, id ∉ s.ids → ∃ outcome, t.outcomes id = [outcome] := by
    intro id hlt hid
    rw [h.registered] at hlt
    rw [hids] at hid
    exact ht.outcomes_of_not_mem hlt hid
  refine ⟨h.entries, h.closed, h.registered, fun id hid => h.outcomes hid, ?_, ?_, ?_⟩
  -- The outcomes in `s` are some of those in `t`, of which there is one at most.
  · intro id hid
    have hsub := h.outcomes_sublist id
    rw [pending id hid, List.sublist_nil] at hsub
    exact ⟨hsub, pending id hid⟩
  · intro id hlt hid
    obtain ⟨outcome, houtcome⟩ := resolved id hlt hid
    refine ⟨outcome, houtcome, ?_⟩
    by_cases hgone : id ∈ s.abandoned
    · have hsub := h.outcomes_sublist id
      rw [houtcome] at hsub
      rcases List.sublist_singleton.mp hsub with hnone | hone
      · exact .inr ⟨hgone, hnone⟩
      · exact .inl hone
    · rw [h.outcomes hgone]
      exact .inl houtcome
  · refine (eq_filter_of_sublist hlabels (hsearches.nodup List.nodup_range)).trans ?_
    refine List.filter_congr fun label hlabel => ?_
    have hlt := List.mem_range.mp (hsearches.subset (List.mem_map_of_mem hlabel))
    rw [map_fst_labels]
    by_cases hid : label.1 ∈ s.ids
    · simp [hid, pending _ hid]
    · obtain ⟨outcome, houtcome⟩ := resolved _ hlt hid
      simp [hid, houtcome]

/-- A run is compared with the run in which every caller waits. -/
theorem mirrors_run (ops : List Op) :
    (run {} ops).Mirrors (run {} (ops.filter fun op => !op.isAbandon)) ∧
      (run {} (ops.filter fun op => !op.isAbandon)).Conserved := by
  refine ⟨mirrors_empty.run ops, conserved_empty.run fun op hop => ?_⟩
  simpa using (List.mem_filter.mp hop).2

/-- A search in flight has no outcome. -/
theorem outcomes_of_mem_ids {ops : List Op} {id : Nat} (h : id ∈ (run {} ops).ids) :
    (run {} ops).outcomes id = [] := by
  obtain ⟨hmirrors, hconserved⟩ := mirrors_run ops
  rw [ids, hmirrors.entries] at h
  have hsublist := hmirrors.outcomes_sublist id
  rw [(hconserved.outcomes_of_mem h).2, List.sublist_nil] at hsublist
  exact hsublist

/-- The number of the next search is not in use: nobody has gone who waited for it, and it has no
outcome. -/
theorem next_unused (ops : List Op) : (run {} ops).registered ∉ (run {} ops).abandoned ∧
    (run {} ops).outcomes (run {} ops).registered = [] := by
  obtain ⟨hmirrors, hconserved⟩ := mirrors_run ops
  refine ⟨fun hmem => Nat.lt_irrefl _ (hmirrors.known _ hmem), ?_⟩
  have hcount := hconserved.count (run {} ops).registered
  rw [hmirrors.registered, if_neg (Nat.lt_irrefl _)] at hcount
  have hlength := (hmirrors.outcomes_sublist (run {} ops).registered).length_le
  rw [hmirrors.registered] at hlength ⊢
  rw [← List.length_eq_zero_iff]
  omega

/-- At every point of every run, each search that was registered is in flight without an outcome or
has exactly one outcome, which stays as it is. Once the connection has ended no search is in flight,
for ever, and one that is registered later has lost its connection at once. -/
theorem run_accounted (ops more : List Op) :
    Accounted (registrations 0 ops) (run {} ops) (run {} (ops.filter fun op => !op.isAbandon)) ∧
    (∀ id outcome, (run {} ops).outcomes id = [outcome] →
      (run {} (ops ++ more)).outcomes id = [outcome]) ∧
    (.close ∈ ops → (run {} ops).entries = [] ∧ (run {} ops).closed ∧ ∀ tag kind,
      ((run {} ops).step (.register tag kind)).outcomes (run {} ops).registered
        = [.error .connectionLost]) := by
  obtain ⟨hmirrors, hconserved⟩ := mirrors_run ops
  refine ⟨hmirrors.accounted hconserved ?_ ?_, ?_, ?_⟩
  · exact labels_run_sublist {} ops
  · have hsub := registrations_sublist 0 ops
    rw [registered_run, List.range_eq_range']
    simpa using hsub
  · intro id outcome houtcome
    obtain ⟨hlater, hlaterConserved⟩ := mirrors_run (ops ++ more)
    -- What was delivered before stays in front, and nothing can come behind it.
    have hstays : [outcome] <+: (run {} (ops ++ more)).outcomes id := by
      rw [← houtcome, run_append]
      exact ((delivered_prefix_run _ more).filter _).map _
    have hle : ((run {} (ops ++ more)).outcomes id).length ≤ 1 := by
      have hcount := hlaterConserved.count id
      have hlength := (hlater.outcomes_sublist id).length_le
      split at hcount <;> omega
    exact (hstays.eq_of_length_le hle).symm
  · intro hclose
    have hclosed : (run {} ops).closed := closed_run_of_mem hclose
    have hdrained : (run {} ops).Drained := Drained.run (fun _ => rfl) ops
    refine ⟨hdrained hclosed, hclosed, fun tag kind => ?_⟩
    obtain ⟨hwaits, hnew⟩ := next_unused ops
    rw [outcomes] at hnew ⊢
    rw [step_eq]
    simp [sends, hclosed, hwaits, hnew]

end ImapSearch.InFlight
