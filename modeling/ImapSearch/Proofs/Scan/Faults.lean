import ImapSearch.Proofs.Scan.Ensures

/-!
# ImapSearch.Proofs.Scan.Faults

**How a scan fails.** `Scan.FailsAs E s` says that every error of the scan is one of those
that `E` allows at the place where reading stopped. It is to errors what `Scan.Ensures` is
to values, and passes through the ways of running one scan after another in the same way.

Any `E` will do that allows a fault at its own place, since that is how `Scan.fail`
reports one: all readers of tokens and values fail in no other way. The one exception is
the reader of sequence sets, which passes on the error of the text of a set
(`Scan.failsAs_sequenceSet`).
-/

namespace ImapSearch.Scan

variable {α β : Type} {E : Cursor → Error → Prop}

/-- Every error of the scan is allowed at the place where it stopped. -/
def FailsAs (E : Cursor → Error → Prop) (s : Scan α) : Prop :=
  ∀ ⦃c d : Cursor⦄ ⦃e : Error⦄, s c = .error e d → E d e

/-! ### Running one scan after another -/

theorem failsAs_pure (a : α) : FailsAs E (pure a : Scan α) := by
  intro c d e h
  cases h

theorem FailsAs.bind {s : Scan α} {f : α → Scan β} (hs : FailsAs E s)
    (hf : ∀ a, FailsAs E (f a)) : FailsAs E (s >>= f) := by
  intro c d e h
  rw [bind_apply] at h
  cases hread : s c with
  | error e' d' =>
    rw [hread] at h
    cases h
    exact hs hread
  | ok a d' =>
    rw [hread] at h
    exact hf a h

theorem FailsAs.map {s : Scan α} (hs : FailsAs E s) (f : α → β) : FailsAs E (f <$> s) := by
  intro c d e h
  rw [map_apply] at h
  cases hread : s c with
  | error e' d' =>
    rw [hread] at h
    cases h
    exact hs hread
  | ok a d' =>
    rw [hread] at h
    cases h

theorem failsAs_eat (b : UInt8) : FailsAs E (eat b) := by
  intro c d e h
  unfold eat at h
  split at h <;> cases h

theorem failsAs_takeWhile (p : UInt8 → Bool) : FailsAs E (takeWhile p) := by
  intro c d e h
  cases h

theorem failsAs_take? (n : Nat) : FailsAs E (take? n) := by
  intro c d e h
  unfold take? at h
  split at h <;> cases h

theorem failsAs_peek : FailsAs E peek := by
  intro c d e h
  cases h

theorem failsAs_lineEnds : FailsAs E lineEnds := by
  intro c d e h
  cases h

/-- A list fails where one of its items does. -/
theorem failsAs_spaced {item : Scan (Option α)} {hitem : item.Forward} (h : FailsAs E item) :
    FailsAs E (spaced item hitem) := by
  intro c d e herror
  fun_induction spaced item hitem c generalizing d e with
  | case1 => cases herror
  | case2 c rest e' d' hread =>
    cases herror
    exact h hread
  | case3 => cases herror
  | case4 => cases herror
  | case5 c rest a d' hread e' f hs hc ih =>
    cases herror
    exact ih hs
  | case6 => cases herror

variable (hfault : ∀ (d : Cursor) (fault : Fault), E d (.malformed d.pos fault))

include hfault

theorem failsAs_fail (fault : Fault) : FailsAs E (fail fault : Scan α) := by
  intro c d e h
  cases h
  exact hfault c fault

/-! ### Tokens -/

theorem failsAs_word : FailsAs E word := by
  refine (failsAs_takeWhile _).bind fun name => ?_
  split
  · split
    · exact failsAs_pure _
    · exact failsAs_fail hfault _
  · split <;> exact failsAs_pure _

theorem failsAs_quotedContent : FailsAs E quotedContent := by
  intro c d e h
  obtain ⟨pos, rest⟩ := c
  have h : quotedBytes pos rest = .error e d := h
  fun_induction quotedBytes pos rest generalizing d e with
  | case1 pos => cases h; exact hfault ⟨pos, []⟩ _
  | case2 => cases h
  | case3 pos => cases h; exact hfault ⟨pos + 1, []⟩ _
  | case4 => cases h
  | case5 pos b rest _ err d' hread _ ih => cases h; exact ih hread hread
  | case6 pos b rest => cases h; exact hfault ⟨pos + 1, b :: rest⟩ _
  | case7 pos b rest => cases h; exact hfault ⟨pos, b :: rest⟩ _
  | case8 => cases h
  | case9 pos b rest _ _ _ err d' hread ih => cases h; exact ih hread hread

theorem failsAs_quotedString : FailsAs E quotedString := by
  refine (failsAs_quotedContent hfault).bind fun content => ?_
  split
  · exact failsAs_pure _
  · exact failsAs_fail hfault _

theorem failsAs_literal : FailsAs E literal := by
  refine (failsAs_takeWhile _).bind fun digits => ?_
  split
  · exact failsAs_fail hfault _
  · refine (failsAs_eat _).bind fun _ => (failsAs_eat _).bind fun brace => ?_
    split
    · exact failsAs_fail hfault _
    · refine (failsAs_eat _).bind fun cr => ?_
      split
      · exact failsAs_fail hfault _
      · refine (failsAs_eat _).bind fun lf => ?_
        split
        · exact failsAs_fail hfault _
        · refine (failsAs_take? _).bind fun data => ?_
          split
          · exact failsAs_pure _
          · exact failsAs_fail hfault _

theorem failsAs_token : FailsAs E token := by
  intro c d e h
  unfold token at h
  split at h
  · cases h
  · split at h
    · cases h
    · split at h
      · cases h
      · split at h
        · exact failsAs_quotedString hfault h
        · split at h
          · exact failsAs_literal hfault h
          · split at h
            · exact failsAs_word hfault h
            · exact failsAs_fail hfault _ h

/-! ### Values -/

theorem failsAs_expect (expected : Token) : FailsAs E (expect expected) := by
  refine (failsAs_token hfault).bind fun t => ?_
  split
  · exact failsAs_pure _
  · exact failsAs_fail hfault _

theorem failsAs_expectSpace : FailsAs E expectSpace := by
  refine (failsAs_eat _).bind fun found => ?_
  split
  · exact failsAs_pure _
  · exact failsAs_fail hfault _

theorem failsAs_expectLineEnd (keyword : String) : FailsAs E (expectLineEnd keyword) := by
  refine failsAs_lineEnds.bind fun ends => ?_
  split
  · exact failsAs_pure _
  · exact failsAs_fail hfault _

theorem failsAs_number : FailsAs E number := by
  refine (failsAs_token hfault).bind fun t => ?_
  split
  · exact failsAs_pure _
  · exact failsAs_fail hfault _

theorem failsAs_atom : FailsAs E atom := by
  refine (failsAs_token hfault).bind fun t => ?_
  split
  · exact failsAs_pure _
  · exact failsAs_pure _
  · exact failsAs_fail hfault _

theorem failsAs_string : FailsAs E string := by
  refine (failsAs_token hfault).bind fun t => ?_
  split
  · exact failsAs_pure _
  · exact failsAs_pure _
  · exact failsAs_pure _
  · exact failsAs_pure _
  · split
    · exact failsAs_pure _
    · exact failsAs_fail hfault _
  · exact failsAs_fail hfault _

theorem failsAs_discardValue : FailsAs E discardValue := by
  have hnested : ∀ depth, FailsAs E (discardNested depth) := by
    intro depth c d e h
    fun_induction discardNested depth c generalizing d e with
    | case1 depth c e' d' hread =>
      cases h
      exact failsAs_token hfault hread
    | case2 => exact failsAs_fail hfault _ h
    | case3 => cases h
    | case4 depth c t d' hread n hn ih => exact ih h
  exact hnested 0

/-! ### Sequence sets -/

/-- A word that is no sequence set is an error of another kind, which has no place. -/
theorem failsAs_sequenceSet
    (hset : ∀ (d : Cursor) (text : String), E d (.invalidSequenceSet text)) :
    FailsAs E sequenceSet := by
  refine (failsAs_token hfault).bind fun t => ?_
  split
  · split
    · exact failsAs_pure _
    · exact failsAs_fail hfault _
  · split
    · exact failsAs_pure _
    · intro c d e h
      cases h
      exact hset c _
  · exact failsAs_fail hfault _

end ImapSearch.Scan
