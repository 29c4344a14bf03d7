import ImapSearch.Proofs.Decimal
import ImapSearch.Response.Parse

/-!
# ImapSearch.Proofs.Scan.Ensures

**What a scan gives.** `Scan.Ensures s P` says that every value that the scan gives
has the property `P`, wherever it begins to read. The property passes through the
ways of running one scan after another, so that a fact about one token, such as that
a number has 32 bits at most (`Scan.ensures_number`), becomes one about complete
responses (`Response.lt_of_parse_search`).

Each layer of the grammar is passed once, for any property: the tokens
(`Scan.ensures_token`), the fields of an extended result (`Scan.ensures_extendedSearch`),
and the untagged responses (`Scan.ensures_response`).
-/

namespace ImapSearch

namespace Scan

variable {α β : Type} {P : α → Prop} {Q : β → Prop}

/-- Of two scans, one after the other, both give a value if the whole does. -/
theorem exists_of_bind {s : Scan α} {f : α → Scan β} {c e : Cursor} {b : β}
    (h : (s >>= f) c = .ok b e) : ∃ a d, s c = .ok a d ∧ f a d = .ok b e := by
  rw [bind_apply] at h
  cases hs : s c with
  | error err d =>
    rw [hs] at h
    cases h
  | ok a d =>
    rw [hs] at h
    exact ⟨a, d, rfl, h⟩

theorem exists_of_map {s : Scan α} {f : α → β} {c d : Cursor} {b : β}
    (h : (f <$> s) c = .ok b d) : ∃ a, s c = .ok a d ∧ f a = b := by
  rw [map_apply] at h
  cases hs : s c with
  | error err e =>
    rw [hs] at h
    cases h
  | ok a e =>
    rw [hs] at h
    cases h
    exact ⟨a, rfl, rfl⟩

/-- Every value that the scan gives has the property. -/
def Ensures (s : Scan α) (P : α → Prop) : Prop := ∀ ⦃c d : Cursor⦄ ⦃a : α⦄, s c = .ok a d → P a

theorem ensures_pure {a : α} (h : P a) : (pure a : Scan α).Ensures P := by
  intro c d a' hok
  cases hok
  exact h

theorem ensures_fail (fault : Fault) : (fail fault : Scan α).Ensures P := by
  intro c d a hok
  cases hok

theorem Ensures.bind {s : Scan α} {f : α → Scan β} (hs : s.Ensures P)
    (hf : ∀ a, P a → (f a).Ensures Q) : (s >>= f).Ensures Q := by
  intro c d b hok
  obtain ⟨a, d', ha, hb⟩ := exists_of_bind hok
  exact hf a (hs ha) hb

/-- Only the scan that is run last matters, if any value of the first will do. -/
theorem ensures_bind {s : Scan α} {f : α → Scan β} (hf : ∀ a, (f a).Ensures Q) :
    (s >>= f).Ensures Q :=
  Ensures.bind (fun _ _ _ _ => trivial) fun a (_ : True) => hf a

theorem Ensures.map {s : Scan α} {f : α → β} (hs : s.Ensures fun a => Q (f a)) :
    (f <$> s).Ensures Q := by
  intro c d b hok
  obtain ⟨a, ha, rfl⟩ := exists_of_map hok
  exact hs ha

/-- What holds of every item holds of every element of the list. -/
theorem ensures_spaced {item : Scan (Option α)} {hitem : item.Forward}
    (h : item.Ensures fun found => ∀ a, found = some a → P a) :
    Ensures (spaced item hitem) fun as => ∀ a ∈ as, P a := by
  intro c d as hok
  fun_induction spaced item hitem c generalizing d as with
  | case1 => cases hok; simp
  | case2 => cases hok
  | case3 => cases hok; simp
  | case4 c rest a d' hitem' as' f hs hc ih =>
    cases hok
    exact List.forall_mem_cons.mpr ⟨h hitem' a rfl, ih hs⟩
  | case5 => cases hok
  | case6 => cases hok; simp

theorem ensures_takeWhile (p : UInt8 → Bool) : (takeWhile p).Ensures fun bs => ∀ b ∈ bs, p b := by
  intro c d bs hok
  cases hok
  exact List.all_eq_true.mp List.all_takeWhile

/-! ### Tokens -/

section Token

variable {P : Token → Prop}

theorem ensures_quotedString (h : ∀ text, P (.quoted text)) : quotedString.Ensures P := by
  refine ensures_bind fun content => ?_
  split
  · exact ensures_pure (h _)
  · exact ensures_fail _

theorem ensures_literal (h : ∀ data, P (.literal data)) : literal.Ensures P := by
  refine ensures_bind fun digits => ?_
  split
  · exact ensures_fail _
  · refine ensures_bind fun _ => ensures_bind fun brace => ?_
    split
    · exact ensures_fail _
    · refine ensures_bind fun cr => ?_
      split
      · exact ensures_fail _
      · refine ensures_bind fun lf => ?_
        split
        · exact ensures_fail _
        · refine ensures_bind fun data => ?_
          split
          · exact ensures_pure (h _)
          · exact ensures_fail _

/-- What a token says of the bytes that it was read from, if it is punctuation or a word. -/
theorem of_token {c d : Cursor} {t : Token} (h : token c = .ok t d) :
    (∃ b rest, c.rest = b :: rest ∧ punctuation? b = some t ∧ d = c.skip 1) ∨
      (∃ b rest, c.rest = b :: rest ∧ isAtomByte b ∧ punctuation? b = none ∧ word c = .ok t d) ∨
      t.kind ∈ [.quoted, .literal, .lineEnd, .endOfInput] := by
  have hquoted : quotedString.Ensures (·.kind = .quoted) := ensures_quotedString fun _ => rfl
  have hliteral : literal.Ensures (·.kind = .literal) := ensures_literal fun _ => rfl
  unfold token at h
  split at h
  next =>
    cases h
    exact .inr (.inr (by simp [Token.kind]))
  next b rest hc =>
    split at h
    next hb =>
      cases h
      exact .inl ⟨b, rest, hc, hb, rfl⟩
    next hb =>
      split at h
      · cases h
        exact .inr (.inr (by simp [Token.kind]))
      · split at h
        · exact .inr (.inr (by simp [hquoted h]))
        · split at h
          · exact .inr (.inr (by simp [hliteral h]))
          · split at h
            next hatom => exact .inr (.inl ⟨b, rest, hc, hatom, hb, h⟩)
            next => cases h

/-- What holds of every word holds of every token, if it holds of those that are no words. -/
theorem ensures_token (hother : ∀ t, t.kind ∉ [.atom, .number, .nil] → P t)
    (hword : word.Ensures P) : token.Ensures P := by
  intro c d t hok
  obtain ⟨b, rest, -, hb, -⟩ | ⟨b, rest, -, -, -, hok⟩ | hkind := of_token hok
  · exact hother t (by grind [punctuation?, Token.kind])
  · exact hword hok
  · refine hother t fun hmem => ?_
    simp only [List.mem_cons, List.not_mem_nil, or_false] at hkind hmem
    grind

end Token

/-- A number among the tokens has 32 bits at most. -/
def NumberFits (t : Token) : Prop := ∀ n, t = .number n → n < numberBound

theorem ensures_token_numberFits : token.Ensures NumberFits := by
  refine ensures_token (fun t ht n hn => ?_) (ensures_bind fun name => ?_)
  · subst hn
    simp [Token.kind] at ht
  · split
    · split
      next n hn =>
        refine ensures_pure fun m hm => ?_
        cases hm
        exact Decimal.lt_of_decodeBelow? hn
      next => exact ensures_fail _
    · split <;> exact ensures_pure (by simp [NumberFits])

/-- An atom among the tokens holds nothing but atom characters. -/
def AtomFits (t : Token) : Prop := ∀ name, t = .atom name → ∀ b ∈ name, isAtomByte b

theorem ensures_token_atomFits : token.Ensures AtomFits := by
  refine ensures_token (fun t ht name hname => ?_)
    ((ensures_takeWhile isAtomByte).bind fun name hname => ?_)
  · subst hname
    simp [Token.kind] at ht
  · split
    · split
      · exact ensures_pure (by simp [AtomFits])
      · exact ensures_fail _
    · split
      · exact ensures_pure (by simp [AtomFits])
      · refine ensures_pure fun name' heq => ?_
        cases heq
        exact hname

theorem ensures_number : number.Ensures (· < numberBound) := by
  refine ensures_token_numberFits.bind fun t ht => ?_
  split
  next n => exact ensures_pure (ht n rfl)
  next => exact ensures_fail _

/-! ### Untagged responses -/

section Untagged

variable {P : Untagged → Prop}
  (hother : ∀ data, (∀ nums, data ≠ .search nums) →
    (∀ tag found, data ≠ .extendedSearch tag found) → P data)

include hother

/-- A response that is no result needs no look at its parts. -/
theorem ensures_map_other {s : Scan α} {f : α → Untagged} (hplain : ∀ a nums, f a ≠ .search nums)
    (hextended : ∀ a tag found, f a ≠ .extendedSearch tag found) : (f <$> s).Ensures P :=
  Ensures.map fun _ _ a _ => hother (f a) (hplain a) (hextended a)

variable (hplain : searchNums.Ensures fun nums => P (.search nums))
  (hextended : extendedSearch.Ensures P)

include hplain hextended

theorem ensures_untaggedBody (keyword : Bytes) : (untaggedBody keyword).Ensures P := by
  unfold untaggedBody
  split
  · exact ensures_map_other hother (by simp) (by simp)
  · split
    · exact ensures_map_other hother (by simp) (by simp)
    · split
      · exact Ensures.map hplain
      · split
        · exact hextended
        · exact ensures_map_other hother (by simp) (by simp)

theorem ensures_untagged : untagged.Ensures P := by
  refine ensures_bind fun _ => ensures_bind fun t => ?_
  split
  · exact ensures_untaggedBody hother hplain hextended _
  · exact ensures_bind fun _ => ensures_bind fun _ => ensures_map_other hother (by simp) (by simp)
  · exact ensures_fail _

/-- What holds of the results of both kinds, and of whatever is no result, holds of every untagged
response. -/
theorem ensures_response : response.Ensures fun r => ∀ data, r = .untagged data → P data := by
  refine ensures_bind fun t => ?_
  split
  · refine Ensures.map fun c d data hok data' hdata => ?_
    cases hdata
    exact ensures_untagged hother hplain hextended hok
  · exact Ensures.map fun _ _ _ _ _ hdata => by cases hdata
  · refine ensures_bind fun _ => ensures_bind fun _ =>
      ensures_bind fun _ => ensures_pure (by simp)
  · intro c d r hok
    cases hok

end Untagged

/-! ### Plain results -/

theorem ensures_searchNums : searchNums.Ensures fun nums => ∀ n ∈ nums, n < numberBound := by
  have hitem : numberUnlessLineEnds.Ensures fun found => ∀ n, found = some n → n < numberBound := by
    refine ensures_bind fun ends => ?_
    split
    · exact ensures_pure (by simp)
    · refine Ensures.map fun c d n hok m hm => ?_
      cases hm
      exact ensures_number hok
  refine (ensures_spaced hitem).bind fun nums hnums => ?_
  exact ensures_bind fun _ => ensures_pure hnums

/-! ### Extended results -/

section Extended

variable {P : SearchData → Prop} {Q : ResultField → Prop}
  (hadd : ∀ data field, P data → Q field → P (data.addField field))
  (hfield : ∀ name, (resultValue name).Ensures Q)

include hfield

theorem ensures_resultFields (name : Bytes) :
    (resultFields name).Ensures fun fields => ∀ field ∈ fields, Q field := by
  have hvalue : ∀ name, (resultFieldOf name).Ensures Q := fun name =>
    ensures_bind fun _ => hfield name
  have hitem : Ensures (some <$> resultField) fun found =>
      ∀ field, found = some field → Q field := by
    refine Ensures.map fun c d field hok field' hsome => ?_
    cases hsome
    exact ensures_bind (fun name => hvalue name) hok
  refine (hvalue name).bind fun field hfirst => ?_
  refine (ensures_spaced hitem).bind fun fields hfields => ?_
  exact ensures_bind fun _ => ensures_pure (List.forall_mem_cons.mpr ⟨hfirst, hfields⟩)

include hadd

theorem ensures_resultData {data : SearchData} (h : P data) (name : Bytes) :
    (resultData data name).Ensures P := by
  have hfold : ∀ (fields : List ResultField) (data : SearchData), P data →
      (∀ field ∈ fields, Q field) → P (fields.foldl SearchData.addField data) := by
    intro fields
    induction fields with
    | nil => exact fun data hdata _ => hdata
    | cons field fields ih =>
      intro data hdata hfields
      obtain ⟨hfirst, hrest⟩ := List.forall_mem_cons.mp hfields
      exact ih _ (hadd data field hdata hfirst) hrest
  exact Ensures.map fun _ _ fields hok =>
    hfold fields data h (ensures_resultFields hfield name hok)

variable (hempty : ∀ uid, P { uid })

include hempty

/-- What holds of a result without fields, and is kept by every field that can be read, holds of
every extended result. -/
theorem ensures_extendedSearch :
    extendedSearch.Ensures fun found => ∃ tag data, found = .extendedSearch tag data ∧ P data := by
  have hunless : ∀ {next : Scan SearchData} {data : SearchData}, next.Ensures P → P data →
      (unlessLineEnds next data).Ensures P := by
    intro next data hnext hdata
    refine ensures_bind fun found => ?_
    split
    · exact hnext
    · exact ensures_bind fun _ => ensures_pure hdata
  have hbody : resultBody.Ensures P := by
    refine ensures_bind fun name => ?_
    split
    · exact hunless (ensures_bind fun name => ensures_resultData hadd hfield (hempty true) name)
        (hempty true)
    · exact ensures_resultData hadd hfield (hempty false) name
  have hresult : ∀ {s : Scan SearchData} (tag : Option Tag), s.Ensures P →
      (Untagged.extendedSearch tag <$> s).Ensures
        fun found => ∃ tag data, found = .extendedSearch tag data ∧ P data := by
    intro s tag hs
    exact Ensures.map fun c d data hok => ⟨tag, data, rfl, hs hok⟩
  refine ensures_bind fun found => ?_
  split
  · refine ensures_bind fun b => ?_
    split
    · exact ensures_bind fun tag => hresult (some tag) (hunless hbody (hempty false))
    · exact hresult none hbody
  · exact ensures_bind fun _ => ensures_pure ⟨none, {}, rfl, hempty false⟩

end Extended

end Scan

namespace Response

/-- What holds of every response that a scan gives holds of every response that is read. -/
theorem of_parse {P : Response → Prop} (hP : Scan.response.Ensures P) {input : Bytes}
    {r : Response} (h : parse input = .ok r) : P r := by
  unfold parse at h
  split at h
  next r d hok =>
    cases h
    exact hP hok
  next => cases h

/-- The numbers of a plain result that was read have 32 bits at most. -/
theorem lt_of_parse_search {input : Bytes} {nums : List Nat}
    (h : parse input = .ok (.untagged (.search nums))) : ∀ n ∈ nums, n < numberBound := by
  have hresponse : Scan.response.Ensures fun r => ∀ data, r = .untagged data →
      ∀ nums, data = .search nums → ∀ n ∈ nums, n < numberBound := by
    refine Scan.ensures_response (fun data hplain _ nums hdata => absurd hdata (hplain nums)) ?_ ?_
    · intro c d nums hok nums' heq
      cases heq
      exact Scan.ensures_searchNums hok
    · intro c d found hok nums heq
      obtain ⟨tag, data, hfound, -⟩ := Scan.ensures_extendedSearch (P := fun _ => True)
        (Q := fun _ => True) (fun _ _ _ _ => trivial) (fun _ _ _ _ _ => trivial)
        (fun _ => trivial) hok
      rw [hfound] at heq
      cases heq
  exact of_parse hresponse h _ rfl nums rfl

end Response

end ImapSearch
