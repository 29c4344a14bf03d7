import ImapSearch.Proofs.InFlight.Resolution

/-!
# ImapSearch.Proofs.InFlight.Addressed

**Operations that name their search.** A completion names its search by tag, and so
does an extended result that comes with a tag. Such an operation changes the first
search with that tag, or takes it out, and hands an outcome to nobody else
(`step_of_addressee?`). Two of them with different tags never meet:

* They can be swapped. The searches in flight are the same afterwards, and the same
  outcomes were handed out, in another order at most (`Reorders`, `reorders_swap`).
* So of operations that name their searches only the order among those with one tag
  matters (`run_reorders`).
* A caller is handed one outcome at most (`length_outcomes_run_le`), so it cannot
  tell in which order the outcomes were handed out (`Reorders.outcomes_eq`).
-/

namespace ImapSearch

/-! ### Changing the first element with a property -/

/-- Replaces the first element that has the property, or takes it out. -/
def changeFirst {α : Type} (p : α → Bool) (f : α → Option α) : List α → List α
  | [] => []
  | a :: rest => if p a then (f a).toList ++ rest else a :: changeFirst p f rest

theorem getD_updateFirst? {α : Type} (p : α → Bool) (f : α → α) (as : List α) :
    (updateFirst? p f as).getD as = changeFirst p (fun a => some (f a)) as := by
  induction as with
  | nil => rfl
  | cons a rest ih =>
    rw [updateFirst?, changeFirst, ← ih]
    split
    · rfl
    · cases updateFirst? p f rest <;> rfl

theorem takeFirst?_eq_map {α : Type} (p : α → Bool) (as : List α) :
    takeFirst? p as = (as.find? p).map fun a => (a, changeFirst p (fun _ => none) as) := by
  induction as with
  | nil => rfl
  | cons a rest ih =>
    rw [takeFirst?, changeFirst, List.find?_cons, ih]
    cases p a with
    | true => rfl
    | false => cases rest.find? p <;> rfl

/-- Where no element has the property nothing changes. -/
theorem changeFirst_of_find?_eq_none {α : Type} {p : α → Bool} {as : List α}
    (h : as.find? p = none) (f : α → Option α) : changeFirst p f as = as := by
  induction as with
  | nil => rfl
  | cons a rest ih =>
    rw [List.find?_cons] at h
    cases hp : p a with
    | true => simp [hp] at h
    | false =>
      rw [hp] at h
      rw [changeFirst, hp, if_neg (by simp), ih h]

section Disjoint

variable {α : Type} {p q : α → Bool} {f g : α → Option α} (hpq : ∀ a, p a → ¬ q a)
  (hg : ∀ a b, g a = some b → p b = p a)

include hpq hg

/-- A change elsewhere does not touch the first element with a property. -/
theorem find?_changeFirst (as : List α) : (changeFirst q g as).find? p = as.find? p := by
  induction as with
  | nil => rfl
  | cons a rest ih =>
    rw [changeFirst]
    by_cases hq : q a
    · have hp : ¬ p a := fun hp => hpq a hp hq
      rw [if_pos hq, List.find?_cons_of_neg hp]
      cases hga : g a with
      | none => rfl
      | some b =>
        rw [← hg a b hga] at hp
        exact List.find?_cons_of_neg hp
    · rw [if_neg hq, List.find?_cons, List.find?_cons, ih]

/-- Changes of different elements can be swapped. -/
theorem changeFirst_comm (hf : ∀ a b, f a = some b → q b = q a) (as : List α) :
    changeFirst p f (changeFirst q g as) = changeFirst q g (changeFirst p f as) := by
  induction as with
  | nil => rfl
  | cons a rest ih =>
    by_cases hp : p a
    · have hq : ¬ q a := hpq a hp
      have hleft : changeFirst q g (a :: rest) = a :: changeFirst q g rest := if_neg hq
      have hright : changeFirst p f (a :: rest) = (f a).toList ++ rest := if_pos hp
      rw [hleft, hright, changeFirst, if_pos hp]
      cases hfa : f a with
      | none => rfl
      | some b =>
        rw [← hf a b hfa] at hq
        exact (if_neg hq).symm
    · have hright : changeFirst p f (a :: rest) = a :: changeFirst p f rest := if_neg hp
      rw [hright]
      by_cases hq : q a
      · have hleft : changeFirst q g (a :: rest) = (g a).toList ++ rest := if_pos hq
        rw [hleft, changeFirst, if_pos hq]
        cases hga : g a with
        | none => rfl
        | some b =>
          rw [← hg a b hga] at hp
          exact if_neg hp
      · have hleft : changeFirst q g (a :: rest) = a :: changeFirst q g rest := if_neg hq
        rw [hleft, changeFirst, if_neg hp, ih, changeFirst, if_neg hq]

end Disjoint

/-! ### Sequences with the same order -/

/-- In both sequences the elements with one key stand in the same order. -/
def SameOrder {α κ : Type} [DecidableEq κ] (key : α → Option κ) (as bs : List α) : Prop :=
  ∀ k, as.filter (fun a => key a = some k) = bs.filter fun b => key b = some k

section SameOrder

variable {α κ : Type} [DecidableEq κ] {key : α → Option κ}

theorem SameOrder.eq_nil {bs : List α} (h : SameOrder key [] bs)
    (hbs : ∀ b ∈ bs, (key b).isSome) : bs = [] := by
  refine List.eq_nil_iff_forall_not_mem.mpr fun b hb => ?_
  obtain ⟨k, hk⟩ := Option.isSome_iff_exists.mp (hbs b hb)
  have hmem : b ∈ bs.filter fun b => key b = some k :=
    List.mem_filter.mpr ⟨hb, decide_eq_true hk⟩
  rw [← h k] at hmem
  cases hmem

/-- The other sequence holds the first element behind elements with other keys. -/
theorem SameOrder.exists_append {a : α} {as bs : List α} (h : SameOrder key (a :: as) bs) {k : κ}
    (hk : key a = some k) : ∃ before after, bs = before ++ a :: after ∧
      (∀ b ∈ before, key b ≠ some k) ∧ SameOrder key as (before ++ after) := by
  have hhead := (h k).symm
  rw [List.filter_cons_of_pos (by simpa using hk), List.filter_eq_cons_iff] at hhead
  obtain ⟨before, after, rfl, hbefore, -, hafter⟩ := hhead
  refine ⟨before, after, rfl, fun b hb => by simpa using hbefore b hb, fun j => ?_⟩
  by_cases hj : j = k
  · subst hj
    rw [List.filter_append, List.filter_eq_nil_iff.mpr hbefore, List.nil_append, hafter]
  · have hskip : ∀ cs : List α,
        (a :: cs).filter (fun c => key c = some j) = cs.filter fun c => key c = some j := by
      intro cs
      refine List.filter_cons_of_neg ?_
      rw [hk, decide_eq_true_eq, Option.some.injEq]
      exact fun he => hj he.symm
    rw [← hskip as, h j, List.filter_append, hskip, ← List.filter_append]

/-- A sequence keeps its order where each element is turned into one with the same key. -/
theorem SameOrder.filterMap {β : Type} {key' : β → Option κ} {f : α → Option β}
    (hf : ∀ a, key a = (f a).bind key') {as bs : List α} (h : SameOrder key as bs) :
    SameOrder key' (as.filterMap f) (bs.filterMap f) := by
  have hfilter : ∀ (k : κ) (cs : List α), (cs.filterMap f).filter (fun b => key' b = some k)
      = (cs.filter fun a => key a = some k).filterMap f := by
    intro k cs
    rw [List.filter_filterMap, List.filterMap_filter]
    congr 1
    funext a
    rw [hf a]
    cases f a <;> rfl
  intro k
  rw [hfilter, hfilter, h k]

end SameOrder

namespace InFlight

open scoped List

/-! ### Operations that name their search -/

/-- The tag by which an operation names its search. -/
def Op.addressee? : Op → Option Tag
  | .complete tag _ _ => some tag
  | .replace correlator _ => correlator
  | _ => none

/-- What becomes of the search that an operation names: nothing is left of one that is completed. -/
def Op.change : Op → Entry → Option Entry
  | .complete _ _ _, _ => none
  | .replace _ data, e => some { e with data }
  | _, e => some e

/-- The outcome that an operation hands to the caller of the search that it names. -/
def Op.answer? : Op → Entry → Option (Nat × Outcome)
  | .complete _ status text, e => some (e.id, status.outcome text e.data)
  | _, _ => none

/-- A search in flight keeps its tag. -/
theorem Op.tag_of_change {op : Op} {e e' : Entry} (h : op.change e = some e') : e'.tag = e.tag := by
  cases op with
  | complete tag status text => cases h
  | _ => cases h; rfl

/-- What is handed out when an operation names the searches with the given tag. -/
def answers (s : InFlight) (tag : Tag) (op : Op) : List (Nat × Outcome) :=
  ((s.entries.find? fun e => e.tag = tag).bind op.answer?).toList.filter fun d => d.1 ∉ s.abandoned

theorem step_of_addressee? {op : Op} {tag : Tag} (h : op.addressee? = some tag) (s : InFlight) :
    s.step op = { s with
      entries := changeFirst (fun e => e.tag = tag) op.change s.entries
      delivered := s.delivered ++ s.answers tag op } := by
  rw [step_eq, answers]
  cases op with
  | complete t status text =>
    cases h
    simp only [entriesAfter, sends, abandonedAfter, Op.registers, Op.isClose, takeFirst?_eq_map]
    cases hfind : s.entries.find? fun e => e.tag = tag with
    | none => simp [changeFirst_of_find?_eq_none hfind]
    | some e => rw [Bool.or_false, Nat.add_zero]; rfl
  | replace correlator data =>
    obtain rfl : correlator = some tag := h
    have hname : (fun e : Entry => (some tag).all (· = e.tag)) = fun e => decide (e.tag = tag) := by
      funext e
      simp [eq_comm]
    simp only [entriesAfter, sends, abandonedAfter, Op.registers, Op.isClose, getD_updateFirst?,
      hname]
    cases s.entries.find? fun e => e.tag = tag <;> (rw [Bool.or_false, Nat.add_zero]; rfl)
  | _ => cases h

/-- An operation that names no search in flight does nothing. -/
theorem step_of_forall_ne {op : Op} {tag : Tag} (h : op.addressee? = some tag) {s : InFlight}
    (hs : ∀ e ∈ s.entries, e.tag ≠ tag) : s.step op = s := by
  have hfind : s.entries.find? (fun e => e.tag = tag) = none := by
    simpa using hs
  rw [step_of_addressee? h, changeFirst_of_find?_eq_none hfind, answers, hfind]
  simp

/-! ### The order of the outcomes -/

/-- The same searches are in flight, and the same outcomes were handed out in some order. -/
structure Reorders (s t : InFlight) : Prop where
  entries : s.entries = t.entries
  closed : s.closed = t.closed
  registered : s.registered = t.registered
  abandoned : s.abandoned = t.abandoned
  delivered : s.delivered ~ t.delivered

theorem Reorders.refl (s : InFlight) : Reorders s s := ⟨rfl, rfl, rfl, rfl, List.Perm.refl _⟩

theorem Reorders.symm {s t : InFlight} (h : Reorders s t) : Reorders t s :=
  ⟨h.entries.symm, h.closed.symm, h.registered.symm, h.abandoned.symm, h.delivered.symm⟩

theorem Reorders.trans {s t u : InFlight} (h : Reorders s t) (h' : Reorders t u) : Reorders s u :=
  ⟨h.entries.trans h'.entries, h.closed.trans h'.closed, h.registered.trans h'.registered,
    h.abandoned.trans h'.abandoned, h.delivered.trans h'.delivered⟩

/-- What an operation does does not depend on the order of earlier outcomes. -/
theorem Reorders.step {s t : InFlight} (h : Reorders s t) (op : Op) :
    Reorders (s.step op) (t.step op) := by
  have hentries : s.entriesAfter op = t.entriesAfter op := by
    cases op <;> simp only [entriesAfter, h.entries, h.closed, h.registered]
  have hsends : s.sends op = t.sends op := by
    cases op <;> simp only [sends, h.entries, h.closed, h.registered]
  have habandoned : s.abandonedAfter op = t.abandonedAfter op := by
    cases op <;> simp only [abandonedAfter, h.registered, h.abandoned]
  rw [step_eq, step_eq, hsends, h.closed, h.registered, h.abandoned]
  exact ⟨hentries, rfl, rfl, habandoned, h.delivered.append_right _⟩

theorem Reorders.run {s t : InFlight} (h : Reorders s t) (ops : List Op) :
    Reorders (s.run ops) (t.run ops) := by
  induction ops generalizing s t with
  | nil => exact h
  | cons op ops ih => exact ih (h.step op)

/-- Operations that name different tags can be swapped. -/
theorem reorders_swap {op op' : Op} {tag tag' : Tag} (h : op.addressee? = some tag)
    (h' : op'.addressee? = some tag') (hne : tag ≠ tag') (s : InFlight) :
    Reorders ((s.step op).step op') ((s.step op').step op) := by
  have hdisjoint : ∀ {t u : Tag}, t ≠ u →
      ∀ e : Entry, decide (e.tag = t) = true → ¬ decide (e.tag = u) = true := by
    intro t u htu e ht hu
    exact htu ((of_decide_eq_true ht).symm.trans (of_decide_eq_true hu))
  have hkeeps : ∀ (o : Op) (t : Tag) (e e' : Entry), o.change e = some e' →
      decide (e'.tag = t) = decide (e.tag = t) := by
    intro o t e e' hchange
    rw [Op.tag_of_change hchange]
  rw [step_of_addressee? h', step_of_addressee? h, step_of_addressee? h, step_of_addressee? h']
  refine ⟨?_, rfl, rfl, rfl, ?_⟩
  · exact changeFirst_comm (hdisjoint hne.symm) (hkeeps op tag') (hkeeps op' tag) s.entries
  · -- The search that one of them names is not touched by the other.
    simp only [answers, find?_changeFirst (hdisjoint hne.symm) (hkeeps op tag'),
      find?_changeFirst (hdisjoint hne) (hkeeps op' tag), List.append_assoc]
    exact List.perm_append_comm.append_left _

/-- An operation can be moved in front of those that name other tags. -/
theorem reorders_front {op : Op} {tag : Tag} (h : op.addressee? = some tag) {before : List Op}
    (hbefore : ∀ o ∈ before, ∃ t, o.addressee? = some t ∧ t ≠ tag) (s : InFlight) :
    Reorders (s.run (before ++ [op])) (s.run (op :: before)) := by
  induction before generalizing s with
  | nil => exact .refl _
  | cons o before ih =>
    obtain ⟨⟨t, ht, hne⟩, hrest⟩ := List.forall_mem_cons.mp hbefore
    have hmoved : Reorders (s.run (o :: before ++ [op])) (((s.step o).step op).run before) :=
      ih hrest (s.step o)
    exact hmoved.trans ((reorders_swap ht h hne s).run before)

/-- Of operations that name their searches only the order among those with one tag matters. -/
theorem run_reorders {ops ops' : List Op} (h : ∀ op ∈ ops, op.addressee?.isSome)
    (h' : ∀ op ∈ ops', op.addressee?.isSome) (horder : SameOrder Op.addressee? ops ops')
    (s : InFlight) : Reorders (s.run ops) (s.run ops') := by
  induction ops generalizing s ops' with
  | nil =>
    obtain rfl : ops' = [] := horder.eq_nil h'
    exact .refl s
  | cons op ops ih =>
    obtain ⟨hop, hops⟩ := List.forall_mem_cons.mp h
    obtain ⟨tag, htag⟩ := Option.isSome_iff_exists.mp hop
    -- The other sequence holds `op` too, behind operations that name other tags.
    obtain ⟨before, after, rfl, hbefore, hrest⟩ := horder.exists_append htag
    have hothers : ∀ o ∈ before, ∃ t, o.addressee? = some t ∧ t ≠ tag := by
      intro o ho
      obtain ⟨t, ht⟩ := Option.isSome_iff_exists.mp (h' o (List.mem_append_left _ ho))
      refine ⟨t, ht, ?_⟩
      rintro rfl
      exact hbefore o ho ht
    have hnamed : ∀ o ∈ before ++ after, o.addressee?.isSome := by
      intro o ho
      refine h' o ?_
      rcases List.mem_append.mp ho with ho | ho
      · exact List.mem_append_left _ ho
      · exact List.mem_append_right _ (List.mem_cons_of_mem _ ho)
    have hmoved : Reorders (s.run (before ++ op :: after)) ((s.step op).run (before ++ after)) := by
      rw [List.append_cons, run_append, run_append (s.step op)]
      exact (reorders_front htag hothers s).run after
    exact (ih hops hnamed hrest (s.step op)).trans hmoved.symm

/-! ### One outcome at most -/

/-- No caller is handed a second outcome. -/
theorem length_outcomes_run_le (ops : List Op) (id : Nat) :
    ((run {} ops).outcomes id).length ≤ 1 := by
  obtain ⟨hmirrors, hconserved⟩ := mirrors_run ops
  have hcount := hconserved.count id
  have hlength := (hmirrors.outcomes_sublist id).length_le
  split at hcount <;> omega

/-- A caller that is handed one outcome at most cannot tell the order of the outcomes. -/
theorem Reorders.outcomes_eq {s t : InFlight} (h : Reorders s t) {id : Nat}
    (hle : (s.outcomes id).length ≤ 1) : s.outcomes id = t.outcomes id := by
  have hperm : s.outcomes id ~ t.outcomes id := (h.delivered.filter _).map _
  match hs : s.outcomes id with
  | [] =>
    rw [hs] at hperm
    exact hperm.symm.eq_nil.symm
  | [outcome] =>
    rw [hs] at hperm
    exact (List.perm_singleton.mp hperm.symm).symm
  | _ :: _ :: _ =>
    rw [hs] at hle
    simp at hle

end InFlight

end ImapSearch
