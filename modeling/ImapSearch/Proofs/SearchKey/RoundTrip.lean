import ImapSearch.Proofs.SearchKey.Items

/-!
# ImapSearch.Proofs.SearchKey.RoundTrip

**Criteria are read back as what they mean.** The bytes of criteria are a search
key of the grammar, the one that stands for the criteria, and a reader stops
where they end (`Criteria.read_encode`). Together with the meaning of that key
this says that writing criteria keeps their meaning.

Two things can be written that a grammar does not have: a keyword is written by
its name as it is, and a year as it is. Criteria are `Legible` if both agree with
the grammar.
-/

namespace ImapSearch

open SearchKey

variable {g : Grammar}

/-! ### Legible conditions -/

/-- Conditions that the grammar has a form for. -/
structure Conditions.Legible (g : Grammar) (c : Conditions) : Prop where
  seqNums : c.seqNums.Reachable
  uids : c.uids.Reachable
  /-- The grammar has the years. -/
  days : ∀ day : Date, some day ∈ [c.since, c.before, c.sentSince, c.sentBefore] →
    Grammar.Reads g day.year
  /-- The names of keywords are names of the grammar. -/
  names : c.EveryKeyword fun name => utf8 name ≠ [] ∧ ∀ b ∈ utf8 name, g.nameByte b

/-! ### Flags -/

theorem readsAs_setItem {flag : Flag} (h : ∀ name, flag = .keyword name →
    utf8 name ≠ [] ∧ ∀ b ∈ utf8 name, g.nameByte b) : ReadsAs g flag.setItem flag.key := by
  cases flag with
  | system flag =>
    have word : isWord (utf8 flag.setKey) ∧
        form? (utf8 flag.setKey) = some (.alone (.flag flag)) := by
      cases flag <;> exact ⟨by decide, rfl⟩
    exact readsAs_alone word.1 word.2
  | keyword name =>
    obtain ⟨hne, hname⟩ := h name rfl
    exact readsAs_keyword (by decide) (rfl : form? (utf8 "KEYWORD") = some (.keyword .keyword))
      hne hname

theorem readsAs_unsetItem {flag : Flag} (h : ∀ name, flag = .keyword name →
    utf8 name ≠ [] ∧ ∀ b ∈ utf8 name, g.nameByte b) :
    ReadsAs g flag.unsetItem (.not flag.key) := by
  cases flag with
  | system flag =>
    have word : isWord (utf8 flag.unsetKey) ∧
        form? (utf8 flag.unsetKey) = some (.alone (.not (.flag flag))) := by
      cases flag <;> exact ⟨by decide, rfl⟩
    exact readsAs_alone word.1 word.2
  | keyword name =>
    obtain ⟨hne, hname⟩ := h name rfl
    exact readsAs_keyword (by decide)
      (rfl : form? (utf8 "UNKEYWORD") = some (.keyword fun name => .not (.keyword name))) hne hname

/-! ### Conditions -/

/-- An item that is only written where it says something. -/
theorem forall₂_optional {absent : Prop} [Decidable absent] {item : Bytes} {key : SearchKey}
    (h : ¬ absent → ReadsAs g item key) :
    List.Forall₂ (ReadsAs g) (if absent then [] else [item]) (if absent then [] else [key]) := by
  split
  next => exact .nil
  next hp => exact .cons (h hp) .nil

/-- One item for each element of a list. -/
theorem forall₂_map {α : Type} {item : α → Bytes} {key : α → SearchKey} {as : List α}
    (h : ∀ a ∈ as, ReadsAs g (item a) (key a)) :
    List.Forall₂ (ReadsAs g) (as.map item) (as.map key) := by
  rw [List.forall₂_map_left_iff, List.forall₂_map_right_iff, List.forall₂_same]
  exact h

/-- The items of two bounds on a day, for the three words that belong to a kind of day. -/
theorem forall₂_dateItems {on since before : String} {lower upper : Option Date}
    {key : DayTest → SearchKey}
    (hon : isWord (utf8 on) ∧ form? (utf8 on) = some (.date fun d => key (.on d)))
    (hsince : isWord (utf8 since) ∧ form? (utf8 since) = some (.date fun d => key (.since d)))
    (hbefore : isWord (utf8 before) ∧ form? (utf8 before) = some (.date fun d => key (.before d)))
    (hlower : ∀ d ∈ lower, Grammar.Reads g d.year) (hupper : ∀ d ∈ upper, Grammar.Reads g d.year) :
    List.Forall₂ (ReadsAs g) (dateItems on since before lower upper)
      ((DayTest.ofBounds lower upper).map key) := by
  cases hs : singleDay? lower upper with
  | some d =>
    obtain ⟨next, rfl, -, -⟩ := singleDay?_eq_some hs
    simp only [dateItems, DayTest.ofBounds, hs]
    exact .cons (readsAs_date hon.1 hon.2 (hlower d rfl)) .nil
  | none =>
    simp only [dateItems, DayTest.ofBounds, hs, List.map_append, List.map_map]
    refine List.rel_append (forall₂_map fun d hd => ?_) (forall₂_map fun d hd => ?_)
    · exact readsAs_date hsince.1 hsince.2 (hlower d (Option.mem_toList.mp hd))
    · exact readsAs_date hbefore.1 hbefore.2 (hupper d (Option.mem_toList.mp hd))

theorem Conditions.Legible.forall₂_items {c : Conditions} (h : c.Legible g) :
    List.Forall₂ (ReadsAs g) c.items c.keys := by
  have reads := h.days
  simp only [List.mem_cons, List.not_mem_nil, or_false] at reads
  unfold items keys
  refine List.rel_append (List.rel_append (List.rel_append (List.rel_append (List.rel_append
    (List.rel_append (List.rel_append (List.rel_append (List.rel_append (List.rel_append
      ?seqNums ?uids) ?arrived) ?sent) ?headers) ?body) ?text) ?flags) ?notFlags) ?larger) ?smaller
  case seqNums =>
    exact forall₂_optional fun hne => readsAs_numbered h.seqNums.valid (by simpa using hne)
  case uids => exact forall₂_optional fun hne => readsAs_uid h.uids.valid (by simpa using hne)
  case arrived =>
    exact forall₂_dateItems ⟨by decide, rfl⟩ ⟨by decide, rfl⟩ ⟨by decide, rfl⟩
      (fun d hd => reads d (.inl hd.symm)) (fun d hd => reads d (.inr (.inl hd.symm)))
  case sent =>
    exact forall₂_dateItems ⟨by decide, rfl⟩ ⟨by decide, rfl⟩ ⟨by decide, rfl⟩
      (fun d hd => reads d (.inr (.inr (.inl hd.symm))))
      (fun d hd => reads d (.inr (.inr (.inr hd.symm))))
  case headers => exact forall₂_map fun field _ => readsAs_header g field
  case body => exact forall₂_map fun s _ => readsAs_string (by decide) rfl s
  case text => exact forall₂_map fun s _ => readsAs_string (by decide) rfl s
  case flags =>
    refine forall₂_map fun flag hflag => readsAs_setItem fun name hname => ?_
    subst hname
    exact h.names name (List.mem_append_left _ hflag)
  case notFlags =>
    refine forall₂_map fun flag hflag => readsAs_unsetItem fun name hname => ?_
    subst hname
    exact h.names name (List.mem_append_right _ hflag)
  case larger => exact forall₂_optional fun _ => readsAs_number (by decide) rfl c.larger
  case smaller => exact forall₂_optional fun _ => readsAs_number (by decide) rfl c.smaller

/-! ### Trees -/

mutual

/-- Criteria are read back as their key, and what follows is left. -/
theorem Criteria.read_encode : ∀ {c : Criteria}, c.Every (Conditions.Legible g) → ∀ rest,
    read g (c.encode ++ rest) = some (c.key, rest)
  | ⟨conditions, excluded, alternatives⟩, ⟨hconditions, hexcluded, halternatives⟩, rest => by
    rw [Criteria.encode, Criteria.key]
    exact read_searchKey (List.rel_append (List.rel_append hconditions.forall₂_items
      (forall₂_excludedItems hexcluded)) (forall₂_alternativeItems halternatives)) rest

theorem forall₂_excludedItems : ∀ {cs : List Criteria}, EveryExcluded (Conditions.Legible g) cs →
    List.Forall₂ (ReadsAs g) (excludedItems cs) (excludedKeys cs)
  | [], _ => .nil
  | _ :: _, ⟨hc, hrest⟩ =>
    .cons (readsAs_not (Criteria.read_encode hc)) (forall₂_excludedItems hrest)

theorem forall₂_alternativeItems : ∀ {cs : List (Criteria × Criteria)},
    EveryAlternative (Conditions.Legible g) cs →
    List.Forall₂ (ReadsAs g) (alternativeItems cs) (alternativeKeys cs)
  | [], _ => .nil
  | (_, _) :: _, ⟨hleft, hright, hrest⟩ =>
    .cons (readsAs_or (Criteria.read_encode hleft) (Criteria.read_encode hright))
      (forall₂_alternativeItems hrest)

end

/-- Writing criteria keeps their meaning: what a reader of the grammar finds is a key that holds of
the same messages, whatever the conditions mean, and the reader stops where the criteria end. -/
theorem Criteria.exists_key_read_encode {c : Criteria} (h : c.Every (Conditions.Legible g)) :
    ∃ key : SearchKey, (∀ rest, read g (c.encode ++ rest) = some (key, rest)) ∧
      ∀ {Message : Type*} (I : Interpretation Message) (m : Message),
        key.Holds I m ↔ c.Matches I m :=
  ⟨c.key, fun rest => read_encode h rest, fun _ _ => c.holds_key_iff⟩

/-- A search with every kind of value: the mail of a leap day with a keyword, a field that needs
escapes and one that needs a literal, but neither large mail nor old mail that was not answered. -/
def leapDaySearch : Criteria where
  conditions := {
    seqNums := (SequenceSet.ofNums [7, 2, 3]).addRange 10 20
    since := some ⟨2024, 2, 29, by decide⟩
    before := some ⟨2024, 3, 1, by decide⟩
    headers := [⟨"Subject", "a \"b\" \\ (c"⟩, ⟨"X-Note", "line\r\nA1 LOGOUT"⟩]
    flags := [.keyword "$Junk"] }
  excluded := [{ conditions := { larger := 100000 } }]
  alternatives := [({ conditions := { flags := [.system .answered] } },
    { excluded := [{ conditions := { notFlags := [.system .recent] } }] })]

theorem exists_key_read_encode_leapDaySearch :
    ∃ key : SearchKey, (∀ rest, read .standard (leapDaySearch.encode ++ rest) = some (key, rest)) ∧
      ∀ {Message : Type*} (I : Interpretation Message) (m : Message),
        key.Holds I m ↔ leapDaySearch.Matches I m := by
  have root : leapDaySearch.conditions.Legible .standard := by
    refine ⟨.addRange 10 20 (.ofNums [7, 2, 3]), .empty, ?_, ?_⟩
    · intro day hday
      refine .inr ?_
      simp only [leapDaySearch, List.mem_cons, Option.some.injEq, reduceCtorEq, List.not_mem_nil,
        or_false] at hday
      rcases hday with rfl | rfl
      · decide
      · decide
    · intro name hname
      obtain rfl : name = "$Junk" := by simpa [leapDaySearch] using hname
      exact ⟨by decide, List.all_eq_true.mp (by decide)⟩
  -- The nodes below the root have neither sets nor days nor keywords.
  have leaf : ∀ larger flags notFlags, (∀ flag ∈ flags ++ notFlags, ∀ name, flag ≠ .keyword name) →
      Conditions.Legible .standard { larger, flags, notFlags } := by
    intro larger flags notFlags h
    exact ⟨.empty, .empty, by simp, fun name hname => absurd rfl (h _ hname name)⟩
  refine Criteria.exists_key_read_encode
    ⟨root, ⟨⟨leaf 100000 [] [] (by simp), trivial, trivial⟩, trivial⟩,
      ⟨leaf 0 [.system .answered] [] (by simp), trivial, trivial⟩, ⟨?_, ?_, trivial⟩, trivial⟩
  · exact leaf 0 [] [] (by simp)
  · exact ⟨⟨leaf 0 [] [.system .recent] (by simp), trivial, trivial⟩, trivial⟩

end ImapSearch
