import ImapSearch.Proofs.Response.Extension
import ImapSearch.Proofs.Scan.Written

/-!
# ImapSearch.Proofs.Scan.Stable

**What was read is read again.** A scan has read some bytes and given a value. Do the
bytes alone account for the value, or did the scan look at what follows them? A token is
read from what is written for it (`Token.WrittenAs`). So it is read again wherever these
bytes stand, as long as a word that ended behind them still does
(`Scan.rereadsAt_token`).

`Scan.Stable` says this of a scan, and composes. It holds of the fields of an extended
result, whose values may be of any shape, but not of a scan that looks whether the line
ends.
-/

namespace ImapSearch.Scan

variable {α β : Type}

/-! ### Reading again -/

/-- From the bytes between two places the scan reads the value again, wherever they stand, as long
as a word that ended behind them still does. -/
def RereadsAt (s : Scan α) (c : Cursor) (a : α) (d : Cursor) : Prop :=
  ∃ bs, c.rest = bs ++ d.rest ∧
    s.Gives (fun rest => EndsWord d.rest → EndsWord rest) bs (some a)

/-- The place behind them is as far on as there are bytes. -/
theorem RereadsAt.exists_front {s : Scan α} {c d : Cursor} {a : α} (hs : s.RereadsAt c a d)
    (h : s c = .ok a d) : ∃ bs, c.rest = bs ++ d.rest ∧ d.pos = c.pos + bs.length ∧
      s.Gives (fun rest => EndsWord d.rest → EndsWord rest) bs (some a) := by
  obtain ⟨bs, hrest, hgives⟩ := hs
  refine ⟨bs, hrest, ?_, hgives⟩
  have hread : s ⟨c.pos, bs ++ d.rest⟩ = .ok a ⟨c.pos + bs.length, d.rest⟩ :=
    hgives c.pos d.rest id
  rw [← hrest, h, EStateM.Result.ok.injEq] at hread
  rw [hread.2]

/-- Whatever the scan reads it reads again. -/
def Stable (s : Scan α) : Prop := ∀ ⦃c d : Cursor⦄ ⦃a : α⦄, s c = .ok a d → s.RereadsAt c a d

/-- Short of the end of the input, a token is read again from what is written for it. -/
theorem rereadsAt_token {c d : Cursor} {t : Token} (h : token c = .ok t d)
    (ht : t ≠ .endOfInput) : token.RereadsAt c t d := by
  obtain ⟨bs, hbs, hrest, -, hends⟩ := exists_written h ht
  refine ⟨bs, hrest, fun pos more hmore => ?_⟩
  exact gives_written hbs pos more fun hword => hmore (hends hword)

/-! ### Running one scan after another -/

/-- What stands in front keeps a word from ending, or it ends where it did. -/
theorem endsWord_append_of {cs rest more : Bytes} (h : EndsWord rest → EndsWord more) :
    EndsWord (cs ++ rest) → EndsWord (cs ++ more) := by
  cases cs with
  | nil => exact h
  | cons b cs => exact id

theorem RereadsAt.bind {s : Scan α} {f : α → Scan β} {c d e : Cursor} {a : α} {b : β}
    (hs : s.RereadsAt c a d) (hf : (f a).RereadsAt d b e) : (s >>= f).RereadsAt c b e := by
  obtain ⟨bs, hc, hs⟩ := hs
  obtain ⟨cs, hd, hf⟩ := hf
  refine ⟨bs ++ cs, by rw [hc, hd, List.append_assoc], hs.then hf fun rest hrest => ?_⟩
  rw [hd]
  exact endsWord_append_of hrest

theorem stable_pure (a : α) : Stable (pure a : Scan α) := by
  intro c d a' h
  cases h
  exact ⟨[], rfl, gives_pure a⟩

theorem stable_fail (fault : Fault) : Stable (fail fault : Scan α) := by
  intro c d a h
  cases h

theorem Stable.bind {s : Scan α} {f : α → Scan β} (hs : Stable s) (hf : ∀ a, Stable (f a)) :
    Stable (s >>= f) := by
  intro c e b h
  obtain ⟨a, d, ha, hb⟩ := exists_of_bind h
  exact (hs ha).bind (hf a hb)

theorem Stable.map {s : Scan α} (hs : Stable s) (f : α → β) : Stable (f <$> s) := by
  intro c d b h
  obtain ⟨a, ha, rfl⟩ := exists_of_map h
  obtain ⟨bs, hc, hgives⟩ := hs ha
  exact ⟨bs, hc, hgives.map f⟩

/-- A token, and a scan that does not take the end of the input for one. -/
theorem stable_token_bind {f : Token → Scan β} (hf : ∀ t, Stable (f t))
    (hend : ∀ c d b, f .endOfInput c ≠ .ok b d) : Stable (token >>= f) := by
  intro c e b h
  obtain ⟨t, d, ht, hb⟩ := exists_of_bind h
  refine (rereadsAt_token ht ?_).bind (hf t hb)
  rintro rfl
  exact hend d e b hb

/-! ### Values -/

theorem stable_expectSpace : Stable expectSpace := by
  intro c d u h
  exact ⟨[Ascii.space], rest_of_expectSpace h, gives_expectSpace⟩

theorem stable_expect {expected : Token} (h : expected.kind ≠ .endOfInput) :
    Stable (expect expected) := by
  refine stable_token_bind (fun t => ?_) fun c d b hok => ?_
  · split
    · exact stable_pure _
    · exact stable_fail _
  · have hkind : ¬ Token.endOfInput.kind = expected.kind := Ne.symm h
    rw [if_neg hkind] at hok
    cases hok

theorem stable_number : Stable number := by
  refine stable_token_bind (fun t => ?_) (by rintro c d b ⟨⟩)
  split
  · exact stable_pure _
  · exact stable_fail _

theorem stable_atom : Stable atom := by
  refine stable_token_bind (fun t => ?_) (by rintro c d b ⟨⟩)
  split
  · exact stable_pure _
  · exact stable_pure _
  · exact stable_fail _

theorem stable_string : Stable string := by
  refine stable_token_bind (fun t => ?_) (by rintro c d b ⟨⟩)
  split
  · exact stable_pure _
  · exact stable_pure _
  · exact stable_pure _
  · exact stable_pure _
  · split
    · exact stable_pure _
    · exact stable_fail _
  · exact stable_fail _

theorem stable_sequenceSet : Stable sequenceSet := by
  refine stable_token_bind (fun t => ?_) (by rintro c d b ⟨⟩)
  split
  · split
    · exact stable_pure _
    · exact stable_fail _
  · split
    · exact stable_pure _
    · intro c d set h
      cases h
  · exact stable_fail _

/-- A value of any shape is read over again, token by token. -/
theorem stable_discardValue : Stable discardValue := by
  have hnested : ∀ depth, Stable (discardNested depth) := by
    intro depth c d u h
    fun_induction discardNested depth c generalizing d with
    | case1 => cases h
    | case2 => cases h
    | case3 depth c t d' hread hn =>
      cases h
      rw [discardNested_eq_bind]
      refine (rereadsAt_token hread (ne_endOfInput_of_nesting? hn)).bind ?_
      rw [hn]
      exact stable_pure () rfl
    | case4 depth c t d' hread n hn ih =>
      rw [discardNested_eq_bind]
      refine (rereadsAt_token hread (ne_endOfInput_of_nesting? hn)).bind ?_
      rw [hn]
      exact ih h
  exact hnested 0

/-! ### Parts of an extended result -/

theorem stable_resultFieldOf (name : Bytes) : Stable (resultFieldOf name) := by
  refine stable_expectSpace.bind fun _ => ?_
  unfold resultValue
  split
  · exact stable_number.map _
  · split
    · exact stable_number.map _
    · split
      · exact stable_number.map _
      · split
        · exact stable_sequenceSet.map _
        · exact stable_discardValue.map _

theorem stable_resultField : Stable resultField :=
  stable_atom.bind fun name => stable_resultFieldOf name

theorem stable_correlator : Stable correlator := by
  refine (stable_expect (by decide)).bind fun _ => stable_atom.bind fun name => ?_
  split
  · exact stable_expectSpace.bind fun _ => stable_string.bind fun _ =>
      (stable_expect (by decide)).bind fun _ => stable_pure _
  · exact stable_fail _

end ImapSearch.Scan
