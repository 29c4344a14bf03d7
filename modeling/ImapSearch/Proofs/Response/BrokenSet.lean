import ImapSearch.Proofs.Response.Faults
import ImapSearch.Proofs.Response.SearchLine
import ImapSearch.Proofs.Scan.InLine
import ImapSearch.Proofs.Scan.Stable
import ImapSearch.Session

/-!
# ImapSearch.Proofs.Response.BrokenSet

**Results with a set that is none.** A field `ALL` whose value is a word, but no sequence
set, is a `BrokenSet`. A response is rejected with the error of that text if and only if
such a field follows bytes that are an extended result in themselves
(`Response.parse_invalidSequenceSet_iff`).

The scans are compared on the whole input and on what stands in front of the field
(`Scan.BrokenBehind`). What they read in front of it they read without it
(`Scan.Stable`); and the line ends there if the field is taken away, since a field is
preceded by a space and a space is never part of a word.
-/

namespace ImapSearch

/-- The name `ALL` of a field, as an atom. -/
def allAtom : UpperAtom := .ofBytes (utf8 "ALL") (by decide +kernel)

/-- A field `ALL` of an extended result whose value is a word that is no sequence set. -/
structure BrokenSet where
  name : Spelling (utf8 "ALL")
  value : PlainAtom
  not_set : SequenceSet.decode? value.bytes = none

/-- The bytes of the field. -/
def BrokenSet.bytes (field : BrokenSet) : Bytes :=
  field.name.bytes ++ Ascii.space :: field.value.bytes

/-- The bytes begin with a field whose value is this text, which is no sequence set. -/
def BeginsBroken (text : String) (bs : Bytes) : Prop :=
  ∃ (field : BrokenSet) (rest : Bytes), bs = field.bytes ++ rest ∧ EndsWord rest ∧
    field.value.text = text

namespace Scan

variable {α β : Type} {text : String}

/-! ### Errors of a set -/

/-- The scan fails because the text is no sequence set. -/
def Breaks (s : Scan α) (text : String) (c : Cursor) : Prop :=
  ∃ d, s c = .error (.invalidSequenceSet text) d

/-- Errors that are of another kind. -/
def IsOther (_ : Cursor) (e : Error) : Prop := ∀ text, e ≠ .invalidSequenceSet text

theorem isOther_malformed (d : Cursor) (fault : Fault) : IsOther d (.malformed d.pos fault) := by
  intro text h
  cases h

theorem not_breaks {s : Scan α} (h : FailsAs IsOther s) (c : Cursor) : ¬ s.Breaks text c := by
  rintro ⟨d, hbreaks⟩
  exact h hbreaks text rfl

theorem breaks_bind {s : Scan α} {f : α → Scan β} {c : Cursor} : (s >>= f).Breaks text c ↔
    s.Breaks text c ∨ ∃ a d, s c = .ok a d ∧ (f a).Breaks text d := by
  unfold Breaks
  rw [bind_apply]
  cases s c with
  | error e d => simp
  | ok a d => simp

theorem breaks_map {s : Scan α} {f : α → β} {c : Cursor} :
    (f <$> s).Breaks text c ↔ s.Breaks text c := by
  unfold Breaks
  rw [map_apply]
  cases s c with
  | error e d => simp
  | ok a d => simp

/-! ### The field that is broken -/

theorem breaks_sequenceSet {c : Cursor} : sequenceSet.Breaks text c ↔
    ∃ (value : PlainAtom) (rest : Bytes), c.rest = value.bytes ++ rest ∧ EndsWord rest ∧
      SequenceSet.decode? value.bytes = none ∧ value.text = text := by
  constructor
  · intro h
    obtain hbreaks | ⟨t, d, htoken, e, hset⟩ := breaks_bind.mp h
    · exact absurd hbreaks (not_breaks (failsAs_token isOther_malformed) c)
    split at hset
    next n =>
      cases hread : SequenceSet.single? n <;> rw [hread] at hset <;> cases hset
    next name =>
      cases hread : SequenceSet.decode? name with
      | some set =>
        rw [hread] at hset
        cases hset
      | none =>
        rw [hread] at hset
        cases hset
        obtain ⟨value, rfl, hrest, hends⟩ := exists_plainAtom_of_token htoken
        exact ⟨value, d.rest, hrest, hends, hread, rfl⟩
    next => cases hset
  · rintro ⟨value, rest, hrest, hends, hnone, rfl⟩
    obtain ⟨pos, bs⟩ := c
    obtain rfl : bs = value.bytes ++ rest := hrest
    have htoken := gives_plainAtom value pos rest hends
    refine breaks_bind.mpr (.inr ⟨_, _, htoken, ⟨pos + value.bytes.length, rest⟩, ?_⟩)
    dsimp only
    rw [hnone]
    rfl

theorem breaks_resultFieldOf {name : Bytes} {c : Cursor} : (resultFieldOf name).Breaks text c ↔
    upperCase name = utf8 "ALL" ∧ ∃ d, expectSpace c = .ok () d ∧ sequenceSet.Breaks text d := by
  have hvalue : ∀ d, (resultValue name).Breaks text d ↔
      upperCase name = utf8 "ALL" ∧ sequenceSet.Breaks text d := by
    intro d
    have hnumber : ∀ f : Nat → ResultField, ¬ (f <$> number).Breaks text d :=
      fun f => not_breaks ((failsAs_number isOther_malformed).map f) d
    have hdiscard : ∀ f : Unit → ResultField, ¬ (f <$> discardValue).Breaks text d :=
      fun f => not_breaks ((failsAs_discardValue isOther_malformed).map f) d
    have hmin : utf8 "MIN" ≠ utf8 "ALL" := by decide +kernel
    have hmax : utf8 "MAX" ≠ utf8 "ALL" := by decide +kernel
    have hcount : utf8 "COUNT" ≠ utf8 "ALL" := by decide +kernel
    unfold resultValue
    split
    next h => simp [hnumber, h, hmin]
    next =>
      split
      next h => simp [hnumber, h, hmax]
      next =>
        split
        next h => simp [hnumber, h, hcount]
        next =>
          split
          next h => simp [breaks_map, h]
          next h => simp [hdiscard, h]
  have hspace : ¬ expectSpace.Breaks text c := not_breaks (failsAs_expectSpace isOther_malformed) c
  unfold resultFieldOf
  simp only [breaks_bind, hspace, hvalue, false_or]
  constructor
  · rintro ⟨⟨⟩, d, hd, hname, hset⟩
    exact ⟨hname, d, hd, hset⟩
  · rintro ⟨hname, d, hd, hset⟩
    exact ⟨(), d, hd, hname, hset⟩

/-- A field fails in this way if it is broken, and only then. -/
theorem breaks_resultField {c : Cursor} :
    resultField.Breaks text c ↔ BeginsBroken text c.rest := by
  have hatom : ¬ atom.Breaks text c := not_breaks (failsAs_atom isOther_malformed) c
  unfold resultField
  simp only [breaks_bind, hatom, breaks_resultFieldOf, false_or]
  constructor
  · rintro ⟨name, d, hname, hall, e, hspace, hset⟩
    obtain ⟨value, rest, hrest, hends, hnone, rfl⟩ := breaks_sequenceSet.mp hset
    obtain ⟨t, d', htoken, hname⟩ := exists_of_bind hname
    split at hname
    next =>
      cases hname
      obtain ⟨a, rfl, ha, -⟩ := exists_plainAtom_of_token htoken
      refine ⟨⟨⟨a.bytes, hall⟩, value, hnone⟩, rest, ?_, hends, rfl⟩
      rw [ha, rest_of_expectSpace hspace, hrest, BrokenSet.bytes, List.append_assoc]
      rfl
    next =>
      cases hname
      exact absurd hall (by decide +kernel)
    next => cases hname
  · rintro ⟨field, rest, hrest, hends, rfl⟩
    obtain ⟨pos, bs⟩ := c
    have hbytes : field.bytes ++ rest =
        field.name.bytes ++ (Ascii.space :: (field.value.bytes ++ rest)) := by
      rw [BrokenSet.bytes, List.append_assoc]
      rfl
    obtain rfl : bs = field.name.bytes ++ (Ascii.space :: (field.value.bytes ++ rest)) :=
      hrest.trans hbytes
    have hname := gives_atom (allAtom.spelled field.name) pos
      (Ascii.space :: (field.value.bytes ++ rest)) (endsWord_cons (by decide) _)
    have hspace := gives_expectSpace (P := fun _ => True) (pos + field.name.bytes.length)
      (field.value.bytes ++ rest) trivial
    exact ⟨_, _, hname, field.name.isKeyword, _, hspace,
      breaks_sequenceSet.mpr ⟨field.value, rest, rfl, hends, field.not_set, rfl⟩⟩

/-! ### Bytes in front of the field -/

/-- The bytes are all that the scan reads, and they give a value with the property. -/
def Completes (s : Scan α) (Q : α → Prop) (pos : Nat) (bs : Bytes) : Prop :=
  ∃ a, Q a ∧ s ⟨pos, bs⟩ = .ok a ⟨pos + bs.length, []⟩

/-- A broken field, with a space in front of it, stands behind bytes that the scan would take for a
whole. -/
def BrokenBehind (s : Scan α) (Q : α → Prop) (text : String) (c : Cursor) : Prop :=
  ∃ front tail, c.rest = front ++ Ascii.space :: tail ∧ BeginsBroken text tail ∧
    s.Completes Q c.pos front

theorem brokenBehind_map {s : Scan α} {f : α → β} {Q : β → Prop} {c : Cursor} :
    (f <$> s).BrokenBehind Q text c ↔ s.BrokenBehind (fun a => Q (f a)) text c := by
  have hcompletes : ∀ pos bs, (f <$> s).Completes Q pos bs ↔
      s.Completes (fun a => Q (f a)) pos bs := by
    intro pos bs
    unfold Completes
    rw [map_apply]
    cases s ⟨pos, bs⟩ with
    | error e d => simp
    | ok a d => simp
  simp only [BrokenBehind, hcompletes]

theorem endsWord_of_append_space {front tail : Bytes}
    (h : EndsWord (front ++ Ascii.space :: tail)) : EndsWord front := by
  cases front with
  | nil => exact fun b hb => by cases hb
  | cons b front => exact h

theorem endsWord_append_space {front : Bytes} (h : EndsWord front) (tail : Bytes) :
    EndsWord (front ++ Ascii.space :: tail) := by
  cases front with
  | nil => exact endsWord_cons (by decide) tail
  | cons b front => exact h

/-- Of two scans, one after the other, the first reads what it reads without the field too. -/
theorem brokenBehind_bind {s : Scan α} {f : α → Scan β} {Q : β → Prop} {c : Cursor}
    (hs : ∀ c d a, s c = .ok a d → (∃ e b e', f a e = .ok b e') → s.RereadsAt c a d) :
    (s >>= f).BrokenBehind Q text c ↔
      ∃ a d, s c = .ok a d ∧ (f a).BrokenBehind Q text d := by
  obtain ⟨pos, input⟩ := c
  constructor
  · intro h
    obtain ⟨front, tail, rfl, hbroken, b, hb, hwhole⟩ := h
    obtain ⟨a, d, ha, hrest⟩ := exists_of_bind hwhole
    obtain ⟨bs, hfront, hpos, hgives⟩ := (hs _ _ _ ha ⟨_, _, _, hrest⟩).exists_front ha
    obtain rfl : front = bs ++ d.rest := hfront
    -- What the first scan stopped at is put in front of the field.
    have hread := hgives pos (d.rest ++ Ascii.space :: tail)
      fun h => endsWord_append_space h tail
    rw [← List.append_assoc] at hread
    refine ⟨a, _, hread, d.rest, tail, rfl, hbroken, b, hb, ?_⟩
    have hd : d = ⟨pos + bs.length, d.rest⟩ := by rw [← hpos]
    rw [hd] at hrest
    rw [hrest, List.length_append, Nat.add_assoc]
  · intro h
    obtain ⟨a, d, ha, front, tail, hd, hbroken, b, hb, hwhole⟩ := h
    obtain ⟨bs, hinput, hpos, hgives⟩ := (hs _ _ _ ha ⟨_, _, _, hwhole⟩).exists_front ha
    obtain rfl : input = bs ++ d.rest := hinput
    refine ⟨bs ++ front, tail, by rw [hd, List.append_assoc], hbroken, b, hb, ?_⟩
    -- The field is taken away, with the space that ended what is in front of it.
    have hread := hgives pos front fun h => endsWord_of_append_space (hd ▸ h)
    rw [bind_apply, hread]
    dsimp only
    have hpos : d.pos = pos + bs.length := hpos
    rw [← hpos, hwhole, hpos, List.length_append, Nat.add_assoc]

theorem brokenBehind_bind_of_stable {s : Scan α} {f : α → Scan β} {Q : β → Prop} {c : Cursor}
    (hs : Stable s) : (s >>= f).BrokenBehind Q text c ↔
      ∃ a d, s c = .ok a d ∧ (f a).BrokenBehind Q text d :=
  brokenBehind_bind fun _ _ _ h _ => hs h

/-- A scan that neither fails in this way nor gives a value with the property. -/
theorem breaks_iff_of_other {s : Scan α} {Q : α → Prop} (hs : FailsAs IsOther s)
    (hQ : s.Ensures fun a => ¬ Q a) (c : Cursor) :
    s.Breaks text c ↔ s.BrokenBehind Q text c := by
  refine iff_of_false (not_breaks hs c) ?_
  rintro ⟨front, tail, -, -, a, ha, hwhole⟩
  exact hQ hwhole ha

/-! ### Fields up to the end of the line -/

/-- Where there is no space, nothing but the end of the line may follow. -/
theorem breaks_iff_of_space {s t : Scan α} {a : α} {Q : α → Prop} (hQ : Q a)
    (hspace : ∀ pos bs, s ⟨pos, Ascii.space :: bs⟩ = t ⟨pos + 1, bs⟩)
    (hend : ∀ c : Cursor, c.rest.head? ≠ some Ascii.space →
      s c = (do expectLineEnd "ESEARCH"; return a) c) {c : Cursor}
    (hnext : ∀ d : Cursor, c.rest = Ascii.space :: d.rest →
      (t.Breaks text d ↔ BeginsBroken text d.rest ∨ t.BrokenBehind Q text d)) :
    s.Breaks text c ↔ s.BrokenBehind Q text c := by
  obtain ⟨pos, bs⟩ := c
  by_cases hhead : bs.head? = some Ascii.space
  · obtain ⟨bs, rfl⟩ := List.head?_eq_some_iff.mp hhead
    have hbreaks : s.Breaks text ⟨pos, Ascii.space :: bs⟩ ↔ t.Breaks text ⟨pos + 1, bs⟩ := by
      unfold Breaks
      rw [hspace]
    have hlength : ∀ front : Bytes, pos + (Ascii.space :: front).length =
        pos + 1 + front.length := by
      intro front
      rw [List.length_cons, Nat.add_assoc, Nat.add_comm 1]
    rw [hbreaks, hnext ⟨pos + 1, bs⟩ rfl]
    constructor
    · intro h
      obtain hbroken | ⟨front, tail, hbs, hbroken, b, hb, hwhole⟩ := h
      · -- The field is the first one, and without it the line ends at once.
        exact ⟨[], bs, rfl, hbroken, a, hQ, hend ⟨pos, []⟩ (by simp)⟩
      · obtain rfl : bs = front ++ Ascii.space :: tail := hbs
        refine ⟨Ascii.space :: front, tail, rfl, hbroken, b, hb, ?_⟩
        rw [hspace, hwhole, hlength]
    · intro h
      obtain ⟨front, tail, hbs, hbroken, b, hb, hwhole⟩ := h
      cases front with
      | nil =>
        obtain rfl : bs = tail := (List.cons.inj hbs).2
        exact .inl hbroken
      | cons first front =>
        obtain ⟨rfl, rfl⟩ := List.cons.inj hbs
        refine .inr ⟨front, tail, rfl, hbroken, b, hb, ?_⟩
        rw [← hspace, hwhole, hlength]
  · refine iff_of_false ?_ ?_
    · rintro ⟨d, hbreaks⟩
      rw [hend _ hhead] at hbreaks
      refine ((failsAs_expectLineEnd isOther_malformed "ESEARCH").bind fun _ => ?_) hbreaks text rfl
      exact failsAs_pure a
    · rintro ⟨front, tail, hbs, -, b, -, hwhole⟩
      obtain rfl : bs = front ++ Ascii.space :: tail := hbs
      cases front with
      | nil => exact hhead rfl
      | cons first front =>
        rw [hend _ hhead] at hwhole
        obtain ⟨u, d, hline, hpure⟩ := exists_of_bind hwhole
        obtain ⟨rfl, -⟩ := of_expectLineEnd hline
        cases hpure

theorem fieldsToEnd_of_not_space {c : Cursor} (h : c.rest.head? ≠ some Ascii.space) :
    fieldsToEnd c = (do expectLineEnd "ESEARCH"; return []) c := by
  have hmore : moreFields c = .ok [] c := spaced_of_not_space h
  rw [fieldsToEnd, bind_apply, hmore]

/-- A field that is broken, or fields behind one that is not. -/
theorem breaks_fields (c : Cursor) :
    fieldsToEnd.Breaks text c ↔ fieldsToEnd.BrokenBehind (fun _ => True) text c := by
  induction hlength : c.rest.length using Nat.strongRecOn generalizing c with
  | _ length ih =>
    refine breaks_iff_of_space (t := fieldAndMore) trivial fieldsToEnd_space
      (fun _ => fieldsToEnd_of_not_space) fun d hd => ?_
    unfold fieldAndMore
    rw [breaks_bind, brokenBehind_bind_of_stable stable_resultField, breaks_resultField]
    refine or_congr_right (exists_congr fun field => exists_congr fun e => and_congr_right ?_)
    intro hfield
    have hshorter : e.rest.length < length := by
      rw [← hlength, hd]
      exact Nat.lt_succ_of_le (forward_resultField.ok hfield).length_le
    rw [breaks_map, brokenBehind_map]
    exact ih _ hshorter e rfl

section Whole

variable {Q : SearchData → Prop} (hQ : ∀ data, Q data)

include hQ

theorem breaks_resultData (data : SearchData) (name : Bytes) (c : Cursor) :
    (resultData data name).Breaks text c ↔
      (resultFieldOf name).Breaks text c ∨ (resultData data name).BrokenBehind Q text c := by
  have hQ' : (fun fields => Q (List.foldl SearchData.addField data fields)) = fun _ => True :=
    funext fun _ => eq_true (hQ _)
  unfold resultData
  rw [breaks_map, brokenBehind_map, hQ', resultFields_eq, breaks_bind,
    brokenBehind_bind_of_stable (stable_resultFieldOf name)]
  refine or_congr_right <| exists_congr fun field => exists_congr fun d =>
    and_congr_right fun _ => ?_
  rw [breaks_map, brokenBehind_map]
  exact breaks_fields d

omit hQ in
/-- A name, and what may be broken because of it. -/
theorem breaks_atom_bind {f : Bytes → Scan SearchData}
    (hf : ∀ name d, (f name).Breaks text d ↔
      (resultFieldOf name).Breaks text d ∨ (f name).BrokenBehind Q text d) (c : Cursor) :
    (atom >>= f).Breaks text c ↔
      BeginsBroken text c.rest ∨ (atom >>= f).BrokenBehind Q text c := by
  have hatom : ¬ atom.Breaks text c := not_breaks (failsAs_atom isOther_malformed) c
  rw [← breaks_resultField, resultField, brokenBehind_bind_of_stable stable_atom, breaks_bind,
    breaks_bind]
  simp only [hatom, hf, false_or, and_or_left, exists_or]

theorem breaks_unlessLineEnds {next : Scan SearchData} {c : Cursor}
    (hnext : ∀ d, next.Breaks text d ↔ BeginsBroken text d.rest ∨ next.BrokenBehind Q text d)
    (data : SearchData) : (unlessLineEnds next data).Breaks text c ↔
      (unlessLineEnds next data).BrokenBehind Q text c := by
  refine breaks_iff_of_space (hQ data) (fun pos bs => ?_) (fun d hd => ?_) fun d _ => hnext d
  · rw [unlessLineEnds, bind_apply, space, eat_head]
    rfl
  · obtain ⟨pos, bs⟩ := d
    rw [unlessLineEnds, bind_apply, space, eat_of_ne hd]
    rfl

theorem breaks_resultBody (c : Cursor) : resultBody.Breaks text c ↔
    BeginsBroken text c.rest ∨ resultBody.BrokenBehind Q text c := by
  have hfields : ∀ data d, (atom >>= resultData data).Breaks text d ↔
      BeginsBroken text d.rest ∨ (atom >>= resultData data).BrokenBehind Q text d :=
    fun data => breaks_atom_bind fun name d => breaks_resultData hQ data name d
  refine breaks_atom_bind (fun name d => ?_) c
  split
  next huid =>
    have hname : ¬ (resultFieldOf name).Breaks text d := by
      rw [breaks_resultFieldOf, huid]
      rintro ⟨hall, -⟩
      exact absurd hall (by decide +kernel)
    rw [or_iff_right hname]
    exact breaks_unlessLineEnds hQ (hfields _) _
  next => exact breaks_resultData hQ _ name d

end Whole

/-! ### Extended results -/

/-- The value is an extended result. -/
def IsExtended (data : Untagged) : Prop := ∃ tag found, data = .extendedSearch tag found

/-- The first byte decides what is read, and without it there is nothing to read. -/
theorem brokenBehind_congr {s t : Scan α} {Q : α → Prop} {c : Cursor}
    (h : ∀ d : Cursor, d.rest.head? = c.rest.head? → s d = t d)
    (hs : ∀ pos, ¬ s.Completes Q pos []) (ht : ∀ pos, ¬ t.Completes Q pos []) :
    s.BrokenBehind Q text c ↔ t.BrokenBehind Q text c := by
  refine exists_congr fun front => exists_congr fun tail => and_congr_right fun hrest =>
    and_congr_right fun _ => ?_
  cases front with
  | nil => exact iff_of_false (hs _) (ht _)
  | cons b front =>
    unfold Completes
    rw [h _ (by rw [hrest]; rfl)]

theorem breaks_congr {s t : Scan α} {c : Cursor} (h : s c = t c) :
    s.Breaks text c ↔ t.Breaks text c := by
  unfold Breaks
  rw [h]

/-- Reads an extended result behind the space that follows its keyword. -/
def resultBehindSpace : Scan Untagged := do
  if (← peek) = some Ascii.openParen then
    let tag ← correlator
    .extendedSearch (some tag) <$> unlessLineEnds resultBody {}
  else .extendedSearch none <$> resultBody

theorem resultBehindSpace_apply (c : Cursor) : resultBehindSpace c =
    if c.rest.head? = some Ascii.openParen then
      (correlator >>= fun tag =>
        Untagged.extendedSearch (some tag) <$> unlessLineEnds resultBody {}) c
    else (Untagged.extendedSearch none <$> resultBody) c := by
  rw [resultBehindSpace, bind_apply]
  show (if c.rest.head? = some Ascii.openParen then _ else _ : Scan Untagged) c = _
  split <;> rfl

/-- The name of a field is no parenthesis. -/
theorem head?_ne_of_beginsBroken {bs : Bytes} (h : BeginsBroken text bs) :
    bs.head? ≠ some Ascii.openParen := by
  obtain ⟨field, rest, rfl, -, -⟩ := h
  obtain ⟨b, tail, hname⟩ := List.exists_cons_of_ne_nil (allAtom.spelled field.name).ne_nil
  have hatom : isAtomByte b := (allAtom.spelled field.name).isAtom b (by simp [hname])
  have hname : field.name.bytes = b :: tail := hname
  rw [BrokenSet.bytes, hname]
  simp only [List.cons_append, List.head?_cons, ne_eq, Option.some.injEq]
  rintro rfl
  exact absurd hatom (by decide)

theorem breaks_resultBehindSpace (c : Cursor) : resultBehindSpace.Breaks text c ↔
    BeginsBroken text c.rest ∨ resultBehindSpace.BrokenBehind IsExtended text c := by
  have hextended : ∀ tag data, IsExtended (.extendedSearch tag data) :=
    fun tag data => ⟨tag, data, rfl⟩
  have hempty : ∀ pos, ¬ resultBehindSpace.Completes IsExtended pos [] := by
    rintro pos ⟨data, -, hread⟩
    cases hread
  by_cases hparen : c.rest.head? = some Ascii.openParen
  · let named : Scan Untagged := correlator >>= fun tag =>
      .extendedSearch (some tag) <$> unlessLineEnds resultBody {}
    have hnamed : ∀ d : Cursor, d.rest.head? = c.rest.head? → resultBehindSpace d = named d :=
      fun d hd => (resultBehindSpace_apply d).trans (if_pos (hd.trans hparen))
    have hnone : ∀ pos, ¬ named.Completes IsExtended pos [] := by
      rintro pos ⟨data, -, hread⟩
      cases hread
    have hbroken : ¬ BeginsBroken text c.rest := fun h => head?_ne_of_beginsBroken h hparen
    have hcorrelator : ¬ correlator.Breaks text c :=
      not_breaks (failsAs_correlator isOther_malformed) c
    rw [breaks_congr (hnamed c rfl), brokenBehind_congr hnamed hempty hnone, or_iff_right hbroken,
      breaks_bind, or_iff_right hcorrelator, brokenBehind_bind_of_stable stable_correlator]
    refine exists_congr fun tag => exists_congr fun d => and_congr_right fun _ => ?_
    rw [breaks_map, brokenBehind_map]
    exact breaks_unlessLineEnds (hextended _) (breaks_resultBody (hextended _)) {}
  · let unnamed : Scan Untagged := .extendedSearch none <$> resultBody
    have hunnamed : ∀ d : Cursor, d.rest.head? = c.rest.head? → resultBehindSpace d = unnamed d :=
      fun d hd => (resultBehindSpace_apply d).trans (if_neg fun h => hparen (hd.symm.trans h))
    have hnone : ∀ pos, ¬ unnamed.Completes IsExtended pos [] := by
      rintro pos ⟨data, -, hread⟩
      cases hread
    rw [breaks_congr (hunnamed c rfl), brokenBehind_congr hunnamed hempty hnone, breaks_map,
      brokenBehind_map]
    exact breaks_resultBody (hextended none) c

theorem breaks_extendedSearch (c : Cursor) :
    extendedSearch.Breaks text c ↔ extendedSearch.BrokenBehind IsExtended text c := by
  refine breaks_iff_of_space (t := resultBehindSpace) (a := .extendedSearch none {})
    ⟨none, {}, rfl⟩ (fun pos bs => ?_) (fun d hd => ?_) fun d _ => breaks_resultBehindSpace d
  · rw [extendedSearch, bind_apply, space, eat_head]
    rfl
  · obtain ⟨pos, bs⟩ := d
    rw [extendedSearch, bind_apply, space, eat_of_ne hd]
    rfl

/-! ### Responses -/

/-- A response that is no extended result. -/
theorem ensures_map_not_extended {s : Scan α} {f : α → Untagged}
    (h : ∀ a tag found, f a ≠ .extendedSearch tag found) :
    (f <$> s).Ensures fun data => ¬ IsExtended data := by
  refine Ensures.map ?_
  rintro c d a hread ⟨tag, found, hdata⟩
  exact h a tag found hdata

theorem breaks_untaggedBody (keyword : Bytes) (c : Cursor) :
    (untaggedBody keyword).Breaks text c ↔
      (untaggedBody keyword).BrokenBehind IsExtended text c := by
  unfold untaggedBody
  split
  · exact breaks_iff_of_other (failsAs_remark.map _) (ensures_map_not_extended (by simp)) c
  · split
    · exact breaks_iff_of_other ((failsAs_capabilities isOther_malformed).map _)
        (ensures_map_not_extended (by simp)) c
    · split
      · exact breaks_iff_of_other ((failsAs_searchNums isOther_malformed).map _)
          (ensures_map_not_extended (by simp)) c
      · split
        · exact breaks_extendedSearch c
        · exact breaks_iff_of_other (failsAs_line.map _) (ensures_map_not_extended (by simp)) c

/-- A token, and a scan that does not take the end of the input for one. -/
theorem breaks_token_bind {f : Token → Scan β} {Q : β → Prop}
    (hf : ∀ t d, (f t).Breaks text d ↔ (f t).BrokenBehind Q text d)
    (hend : ∀ c b d, f .endOfInput c ≠ .ok b d) (c : Cursor) :
    (token >>= f).Breaks text c ↔ (token >>= f).BrokenBehind Q text c := by
  have htoken : ¬ token.Breaks text c := not_breaks (failsAs_token isOther_malformed) c
  have hreread : ∀ c d t, token c = .ok t d → (∃ e b e', f t e = .ok b e') →
      token.RereadsAt c t d := by
    rintro c d t hread ⟨e, b, e', hvalue⟩
    refine rereadsAt_token hread ?_
    rintro rfl
    exact hend e b e' hvalue
  rw [breaks_bind, or_iff_right htoken, brokenBehind_bind hreread]
  exact exists_congr fun t => exists_congr fun d => and_congr_right fun _ => hf t d

theorem breaks_untagged (c : Cursor) :
    untagged.Breaks text c ↔ untagged.BrokenBehind IsExtended text c := by
  have hspace : ¬ expectSpace.Breaks text c := not_breaks (failsAs_expectSpace isOther_malformed) c
  unfold untagged
  rw [breaks_bind, or_iff_right hspace, brokenBehind_bind_of_stable stable_expectSpace]
  refine exists_congr fun _ => exists_congr fun d => and_congr_right fun _ => ?_
  refine breaks_token_bind (fun t e => ?_) (by rintro c b d ⟨⟩) d
  split
  · exact breaks_untaggedBody _ e
  · refine breaks_iff_of_other (failsAs_numbered isOther_malformed _) ?_ e
    exact ensures_bind fun _ => ensures_bind fun _ => ensures_map_not_extended (by simp)
  · exact breaks_iff_of_other (failsAs_fail isOther_malformed _) (ensures_fail _) e

/-- The response is an extended result. -/
def IsExtendedResponse (r : Response) : Prop := ∃ tag data, r = .untagged (.extendedSearch tag data)

theorem breaks_response (c : Cursor) :
    response.Breaks text c ↔ response.BrokenBehind IsExtendedResponse text c := by
  refine breaks_token_bind (fun t d => ?_) (by rintro c b d ⟨⟩) c
  split
  · have hQ : (fun data => IsExtendedResponse (.untagged data)) = IsExtended := by
      funext data
      simp [IsExtendedResponse, IsExtended]
    rw [breaks_map, brokenBehind_map, hQ]
    exact breaks_untagged d
  · refine breaks_iff_of_other failsAs_continuation (Ensures.map ?_) d
    rintro c d a hread ⟨tag, data, hr⟩
    cases hr
  · refine breaks_iff_of_other (failsAs_tagged isOther_malformed _) ?_ d
    refine ensures_bind fun _ => ensures_bind fun _ => ensures_bind fun _ => ensures_pure ?_
    simp [IsExtendedResponse]
  · refine breaks_iff_of_other ?_ ?_ d
    · rintro c d e herror text rfl
      cases herror
    · intro c d r hread
      cases hread

end Scan

namespace Response

/-- The input is an extended result from its beginning to its end, which may lack the line
terminator. -/
def IsWholeResult (input : Bytes) : Prop :=
  ∃ tag data, Scan.response (Cursor.start input) =
    .ok (.untagged (.extendedSearch tag data)) ⟨input.length, []⟩

/-- An input is rejected because a text is no sequence set if and only if it is an extended result
up to a field whose value is this text. -/
theorem parse_invalidSequenceSet_iff {input : Bytes} {text : String} :
    parse input = .error (.invalidSequenceSet text) ↔
      ∃ (front : Bytes) (field : BrokenSet) (rest : Bytes),
        input = front ++ Ascii.space :: (field.bytes ++ rest) ∧ IsWholeResult front ∧
        EndsWord rest ∧ field.value.text = text := by
  have hparse : parse input = .error (.invalidSequenceSet text) ↔
      Scan.response.Breaks text (Cursor.start input) := by
    unfold parse Scan.Breaks
    cases Scan.response (Cursor.start input) with
    | error e d => simp
    | ok r d => simp
  rw [hparse, Scan.breaks_response]
  constructor
  · rintro ⟨front, tail, hinput, ⟨field, rest, rfl, hends, htext⟩, r, ⟨tag, data, rfl⟩, hwhole⟩
    have hwhole : Scan.response (Cursor.start front) =
        .ok (.untagged (.extendedSearch tag data)) ⟨0 + front.length, []⟩ := hwhole
    rw [Nat.zero_add] at hwhole
    exact ⟨front, field, rest, hinput, ⟨tag, data, hwhole⟩, hends, htext⟩
  · rintro ⟨front, field, rest, hinput, ⟨tag, data, hwhole⟩, hends, htext⟩
    refine ⟨front, _, hinput, ⟨field, rest, rfl, hends, htext⟩, _, ⟨tag, data, rfl⟩, ?_⟩
    show Scan.response (Cursor.start front) = .ok _ ⟨0 + front.length, []⟩
    rw [Nat.zero_add]
    exact hwhole

end Response

/-- Whatever is received, either it is read and applied, or it is rejected and the session stays as
it is. What is rejected has a fault that lies within it, with one exception: an extended result up
to a field `ALL` whose value is a word, but no sequence set. Then the error is the one of that word,
and does not say where it stands. -/
theorem Session.receive_cases (s : Session) (input : Bytes) :
    ((∃ r, s.receive input = (s.apply r, .ok r)) ∨
      (∃ position fault, s.receive input = (s, .error (.malformed position fault)) ∧
        position ≤ input.length) ∨
      ∃ text, s.receive input = (s, .error (.invalidSequenceSet text))) ∧
    ∀ text, s.receive input = (s, .error (.invalidSequenceSet text)) ↔
      ∃ (front : Bytes) (field : BrokenSet) (rest : Bytes),
        input = front ++ Ascii.space :: (field.bytes ++ rest) ∧ Response.IsWholeResult front ∧
        EndsWord rest ∧ field.value.text = text := by
  have hrejected : ∀ {e}, Response.parse input = .error e → s.receive input = (s, .error e) := by
    intro e he
    rw [receive, he]
  refine ⟨?cases, fun text => ?exception⟩
  case cases =>
    cases hparse : Response.parse input with
    | ok r => exact .inl ⟨r, by rw [receive, hparse]⟩
    | error e =>
      obtain ⟨position, fault, rfl, hposition⟩ | ⟨text, rfl⟩ := Response.error_cases hparse
      · exact .inr (.inl ⟨position, fault, hrejected hparse, hposition⟩)
      · exact .inr (.inr ⟨text, hrejected hparse⟩)
  case exception =>
    rw [← Response.parse_invalidSequenceSet_iff]
    refine ⟨fun hreceive => ?_, hrejected⟩
    unfold receive at hreceive
    split at hreceive
    next => cases congrArg Prod.snd hreceive
    next e he =>
      cases congrArg Prod.snd hreceive
      exact he

/-- The set of a result that names its search and gives a count, with the number zero in it. By
itself, that number is a fault. -/
example :
    Response.parse (utf8 "* ESEARCH (TAG \"A0\") COUNT 1 all 3:0 MIN 3\r\n") =
      .error (.invalidSequenceSet "3:0") ∧
    Response.parse (utf8 "* ESEARCH ALL 0\r\n") = .error (.malformed 15 .numberZero) := by
  decide +kernel

end ImapSearch
