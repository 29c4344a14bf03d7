import ImapSearch.Proofs.InFlight.Run

/-!
# ImapSearch.Proofs.InFlight.Data

**What searches find.** The data of a search begin without numbers, grow with every plain
result, and are replaced by an extended one. So a property of data that the first two
have or keep, and that every extended result has which arrives, holds of whatever a
search has found so far, and of every result that a caller is handed
(`InFlight.Holds.run`).
-/

namespace ImapSearch

namespace InFlight

/-- The property holds of what the searches in flight found so far, and of every result that was
handed to a caller. -/
structure Holds (P : SearchData → Prop) (s : InFlight) : Prop where
  entries : ∀ e ∈ s.entries, P e.data
  delivered : ∀ id data, (id, .ok data) ∈ s.delivered → P data

/-- An extended result that the operation brings has the property. -/
def Op.Brings (P : SearchData → Prop) : Op → Prop
  | .replace _ data => P data
  | _ => True

theorem holds_empty (P : SearchData → Prop) : Holds P {} := ⟨by simp, by simp⟩

/-- What holds of every element, and of one that is changed, holds after the change. -/
theorem forall_of_updateFirst? {α : Type} {p : α → Bool} {f : α → α} {Q : α → Prop} {as : List α}
    (has : ∀ a ∈ as, Q a) (hf : ∀ a, Q a → Q (f a)) : ∀ a ∈ (updateFirst? p f as).getD as, Q a := by
  cases h : updateFirst? p f as with
  | none => exact has
  | some bs =>
    obtain ⟨before, a, after, rfl, rfl⟩ := updateFirst?_eq_some h
    simp only [List.forall_mem_append, List.forall_mem_cons] at has
    exact List.forall_mem_append.mpr ⟨has.1, List.forall_mem_cons.mpr ⟨hf a has.2.1, has.2.2⟩⟩

section Step

variable {P : SearchData → Prop} {s : InFlight}
  (hfresh : ∀ uid, P { uid }) (hadd : ∀ data nums, P data → P (data.addNums nums))

include hfresh hadd

theorem Holds.entriesAfter {op : Op} (h : Holds P s) (hop : op.Brings P) :
    ∀ e ∈ s.entriesAfter op, P e.data := by
  cases op with
  | register tag kind =>
    rw [InFlight.entriesAfter]
    split
    · exact h.entries
    · exact List.forall_mem_append.mpr ⟨h.entries, by simpa using hfresh kind.isUid⟩
  | accumulate nums => exact forall_of_updateFirst? h.entries fun e => hadd e.data nums
  | replace correlator data => exact forall_of_updateFirst? h.entries fun _ _ => hop
  | complete tag status text =>
    rw [InFlight.entriesAfter]
    split
    next => exact h.entries
    next e others htaken =>
      obtain ⟨before, after, hentries, rfl⟩ := takeFirst?_eq_some htaken
      have hall := h.entries
      rw [hentries] at hall
      simp only [List.forall_mem_append, List.forall_mem_cons] at hall
      exact List.forall_mem_append.mpr ⟨hall.1, hall.2.2⟩
  | failAll error => simp [InFlight.entriesAfter]
  | close => simp [InFlight.entriesAfter]
  | refuse error => exact h.entries
  | abandon id => exact h.entries

omit hfresh hadd in
/-- A caller is handed a result only when a search in flight is completed. -/
theorem Holds.sends {op : Op} (h : Holds P s) {id : Nat} {data : SearchData}
    (hsent : (id, .ok data) ∈ s.sends op) : P data := by
  cases op with
  | complete tag status text =>
    rw [InFlight.sends] at hsent
    split at hsent
    next => cases hsent
    next e others htaken =>
      obtain ⟨before, after, hentries, -⟩ := takeFirst?_eq_some htaken
      obtain rfl : data = e.data := by
        cases status <;> simp_all [Status.outcome]
      exact h.entries e (by simp [hentries])
  | register tag kind => simp [InFlight.sends] at hsent
  | refuse error => simp [InFlight.sends] at hsent
  | failAll error => simp [InFlight.sends] at hsent
  | close => simp [InFlight.sends] at hsent
  | accumulate nums => cases hsent
  | replace correlator data => cases hsent
  | abandon id => cases hsent

/-- One operation keeps the property. -/
theorem Holds.step {op : Op} (h : Holds P s) (hop : op.Brings P) : Holds P (s.step op) := by
  rw [step_eq]
  refine ⟨h.entriesAfter hfresh hadd hop, fun id data hdelivered => ?_⟩
  rcases List.mem_append.mp hdelivered with hold | hnew
  · exact h.delivered id data hold
  · exact h.sends (List.mem_filter.mp hnew).1

/-- Operations one after the other keep the property. -/
theorem Holds.run {ops : List Op} (h : Holds P s) (hops : ∀ op ∈ ops, op.Brings P) :
    Holds P (s.run ops) := by
  induction ops generalizing s with
  | nil => exact h
  | cons op ops ih =>
    obtain ⟨hop, hrest⟩ := List.forall_mem_cons.mp hops
    exact ih (h.step hfresh hadd hop) hrest

end Step

end InFlight

end ImapSearch
