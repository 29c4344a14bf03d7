import ImapSearch.Proofs.Command.Literals
import ImapSearch.Proofs.InFlight.Resolution
import ImapSearch.Proofs.Session.Run

/-!
# ImapSearch.Proofs.Session.LiteralGate

**A search with literals that the server does not accept is not sent.** A session looks
at the largest literal of a search only. That is enough, since a server that accepts a
literal accepts every smaller one (`Capability.supportLiteral_of_le`). So a search is
refused for exactly those literals that would be written (`Session.issue_gated`).
-/

namespace ImapSearch

/-! ### What a server accepts -/

theorem Capability.allowsLiteral_of_le {m n : Nat} (h : m ≤ n) {capability : Capability}
    (hn : capability.allowsLiteral n) : capability.allowsLiteral m := by
  cases capability with
  | literalPlus => rfl
  | literalMinus | rev2 => exact decide_eq_true (Nat.le_trans h (of_decide_eq_true hn))
  | rev1 | extendedSearch | other => cases hn

/-- A server that accepts a literal accepts every smaller one. -/
theorem Capability.supportLiteral_of_le {m n : Nat} (h : m ≤ n) {capabilities : List Capability}
    (hn : supportLiteral capabilities n) : supportLiteral capabilities m := by
  unfold supportLiteral at hn ⊢
  rw [List.any_eq_true] at hn ⊢
  obtain ⟨capability, hmem, hallows⟩ := hn
  exact ⟨capability, hmem, allowsLiteral_of_le h hallows⟩

namespace Session

/-! ### The check -/

theorem refusedLiteral?_eq_some {s : Session} {command : Command} {size : Nat} :
    s.refusedLiteral? command = some size ↔ command.criteria.literalSizes.max? = some size ∧
      s.capabilities ≠ [] ∧ ¬ Capability.supportLiteral s.capabilities size := by
  simp [refusedLiteral?, Criteria.largestLiteral?, Option.filter_eq_some_iff]

/-- A search is let through if and only if the server accepts each of its literals, or has not said
what it can do. -/
theorem refusedLiteral?_eq_none {s : Session} {command : Command} :
    s.refusedLiteral? command = none ↔ (s.capabilities ≠ [] →
      ∀ size ∈ command.criteria.literalSizes, Capability.supportLiteral s.capabilities size) := by
  rw [Option.eq_none_iff_forall_ne_some]
  constructor
  · intro h hknown size hsize
    -- The largest literal is accepted, and this one is not larger.
    obtain ⟨largest, hlargest⟩ := Option.isSome_iff_exists.mp (List.isSome_max?_of_mem hsize)
    have hle : size ≤ largest := (List.max?_eq_some_iff.mp hlargest).2 size hsize
    have hsupport : Capability.supportLiteral s.capabilities largest := by
      by_contra hrefused
      exact h largest (refusedLiteral?_eq_some.mpr ⟨hlargest, hknown, hrefused⟩)
    exact Capability.supportLiteral_of_le hle hsupport
  · intro h size hsome
    obtain ⟨hmax, hknown, hrefused⟩ := refusedLiteral?_eq_some.mp hsome
    exact hrefused (h hknown size (List.max?_eq_some_iff.mp hmax).1)

/-! ### Issuing a search -/

theorem issue_of_refused {s : Session} {command : Command} {size : Nat}
    (h : s.refusedLiteral? command = some size) : s.issue command =
      ({ s with
          tags := s.tags.advance
          inFlight := s.inFlight.step (.refuse (.literalRefused size)) }, ⟨s.tags.tag, none⟩) := by
  rw [issue, h]
  rfl

theorem issue_of_accepted {s : Session} {command : Command}
    (h : s.refusedLiteral? command = none) : s.issue command =
      ({ s with
          tags := s.tags.advance
          inFlight := s.inFlight.step (.register s.tags.tag command.kind) },
        ⟨s.tags.tag, some (command.encode s.tags.tag)⟩) := by
  rw [issue, h]
  rfl

theorem step_refuse {s : InFlight} (h : s.registered ∉ s.abandoned) (error : Error) :
    s.step (.refuse error) = { s with
      registered := s.registered + 1
      delivered := s.delivered ++ [(s.registered, .error error)] } := by
  rw [InFlight.step_eq]
  simp [InFlight.entriesAfter, InFlight.sends, InFlight.Op.isClose, InFlight.Op.registers,
    InFlight.abandonedAfter, h]

/-- A search that is refused fails for its caller, and for no other. -/
theorem outcomes_refuse {s : InFlight} (h : s.registered ∉ s.abandoned) (error : Error) (id : Nat) :
    (s.step (.refuse error)).outcomes id
      = s.outcomes id ++ if id = s.registered then [.error error] else [] := by
  rw [step_refuse h, InFlight.outcomes, InFlight.outcomes, List.filter_append, List.map_append]
  by_cases hid : s.registered = id
  · simp [hid]
  · simp [hid, Ne.symm hid]

/-- Whatever has happened before, a refusal leaves the other searches alone. -/
theorem refuse_frame (ops : List InFlight.Op) (error : Error) :
    let s := InFlight.run {} ops
    let s' := s.step (.refuse error)
    s'.entries = s.entries ∧ s'.closed = s.closed ∧ s'.outcomes s.registered = [.error error] ∧
      ∀ id ≠ s.registered, s'.outcomes id = s.outcomes id := by
  intro s s'
  obtain ⟨hwaits, hnew⟩ := InFlight.next_unused ops
  have hstep : s' = _ := step_refuse hwaits error
  refine ⟨by rw [hstep], by rw [hstep], ?_, fun id hid => ?_⟩
  · rw [outcomes_refuse hwaits, if_pos rfl, hnew, List.nil_append]
  · rw [outcomes_refuse hwaits, if_neg hid, List.append_nil]

/-- A search is refused if and only if the server has said what it can do and does not accept one
of the literals that the encoding holds. Whatever has happened to other searches before, a search
that is refused takes up its tag, is neither sent nor in flight, and has failed for its caller with
the size of its largest literal. Any other search is sent as it is, and a server that has said what
it can do accepts all of its literals. -/
theorem issue_gated (tags : TagSupply) (ops : List InFlight.Op) (capabilities : List Capability)
    (command : Command) :
    let s : Session := { tags, inFlight := InFlight.run {} ops, capabilities }
    let s' := (s.issue command).1
    let issued := (s.issue command).2
    let pieces := command.criteria.pieces
    let literals := pieces.flatMap Piece.sizes
    pieces.flatMap Piece.bytes = command.criteria.encode ∧
    (issued.tag = tags.tag ∧ s'.tags = tags.advance ∧ s'.capabilities = capabilities) ∧
    (issued.sent = none ↔ capabilities ≠ [] ∧
      ∃ size ∈ literals, ¬ Capability.supportLiteral capabilities size) ∧
    (issued.sent = none → s'.inFlight.entries = s.inFlight.entries ∧
      s'.inFlight.closed = s.inFlight.closed ∧
      (∃ largest, literals.max? = some largest ∧
        s'.inFlight.outcomes s.inFlight.registered = [.error (.literalRefused largest)]) ∧
      ∀ id ≠ s.inFlight.registered, s'.inFlight.outcomes id = s.inFlight.outcomes id) ∧
    ∀ bytes, issued.sent = some bytes → bytes = command.encode tags.tag ∧
      (capabilities ≠ [] → ∀ size ∈ literals, Capability.supportLiteral capabilities size) := by
  intro s s' issued pieces literals
  have hliterals : literals = command.criteria.literalSizes := command.criteria.flatMap_sizes_pieces
  refine ⟨command.criteria.flatMap_bytes_pieces, ?_⟩
  cases hcheck : s.refusedLiteral? command with
  | none =>
    have hissue : (s', issued) = _ := issue_of_accepted hcheck
    have hsupport := refusedLiteral?_eq_none.mp hcheck
    rw [← hliterals] at hsupport
    obtain ⟨hs', hissued⟩ := Prod.mk.inj hissue
    have hsent : issued.sent = some (command.encode tags.tag) := congrArg Issued.sent hissued
    refine ⟨⟨congrArg Issued.tag hissued, congrArg Session.tags hs',
      congrArg Session.capabilities hs'⟩, ?_, fun hnone => ?_, fun bytes hbytes => ?_⟩
    · rw [hsent]
      refine iff_of_false (Option.some_ne_none _) ?_
      rintro ⟨hknown, size, hsize, hrefused⟩
      exact hrefused (hsupport hknown size hsize)
    · rw [hsent] at hnone
      cases hnone
    · rw [hsent] at hbytes
      exact ⟨(Option.some.inj hbytes).symm, hsupport⟩
  | some largest =>
    obtain ⟨hmax, hknown, hrefused⟩ := refusedLiteral?_eq_some.mp hcheck
    rw [← hliterals] at hmax
    have hissue : (s', issued) = _ := issue_of_refused hcheck
    obtain ⟨hs', hissued⟩ := Prod.mk.inj hissue
    have hsent : issued.sent = none := congrArg Issued.sent hissued
    have hinFlight : s'.inFlight = s.inFlight.step (.refuse (.literalRefused largest)) :=
      congrArg Session.inFlight hs'
    obtain ⟨hentries, hclosed, hfailed, hothers⟩ := refuse_frame ops (.literalRefused largest)
    rw [← hinFlight] at hentries hclosed hfailed
    refine ⟨⟨congrArg Issued.tag hissued, congrArg Session.tags hs',
      congrArg Session.capabilities hs'⟩, ?_, fun _ => ⟨hentries, hclosed, ⟨largest, hmax, hfailed⟩,
      fun id hid => hinFlight ▸ hothers id hid⟩, fun bytes hbytes => ?_⟩
    · exact iff_of_true hsent ⟨hknown, largest, (List.max?_eq_some_iff.mp hmax).1, hrefused⟩
    · rw [hsent] at hbytes
      cases hbytes

/-- A search for mail that does not have a text of two bytes outside ASCII in its subject. -/
def accentSearch : Command where
  criteria := { excluded := [.header "Subject" "é"] }
  options := []
  kind := .uidSearch

theorem issue_gated_accentSearch :
    (issue { capabilities := [.rev1] } accentSearch).2.sent = none ∧
      (issue { capabilities := [.rev1, .literalMinus] } accentSearch).2.sent ≠ none := by
  constructor
  · exact (issue_gated {} [] [.rev1] accentSearch).2.2.1.mpr ⟨by decide, 2, by decide, by decide⟩
  · intro h
    obtain ⟨-, size, hsize, hrefused⟩ :=
      (issue_gated {} [] [.rev1, .literalMinus] accentSearch).2.2.1.mp h
    obtain rfl : size = 2 := List.mem_singleton.mp hsize
    exact hrefused (by decide)

end Session

end ImapSearch
