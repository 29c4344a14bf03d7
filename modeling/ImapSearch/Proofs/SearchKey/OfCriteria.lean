import ImapSearch.Criteria.Encode
import ImapSearch.Proofs.SearchKey

/-!
# ImapSearch.Proofs.SearchKey.OfCriteria

**Criteria as search keys.** `Criteria.key` is the search key that stands for
criteria: the keys of its conditions, of what it excludes and of its
alternatives, in one group. It means what the criteria mean
(`Criteria.holds_key_iff`), under every interpretation.

Two steps of the translation change the form of a condition. A lower and an upper
bound on a day become one day where no other day lies between them
(`DayTest.ofBounds_hold_iff`), and the name of a header field is put in upper case
where it is a word of the grammar (`HeaderField.holds_key_iff`).
-/

namespace ImapSearch

variable {Message : Type*} {I : Interpretation Message} {m : Message}

/-! ### Days -/

/-- The conditions that two bounds make, on a single day where they leave one. -/
def DayTest.ofBounds (lower upper : Option Date) : List DayTest :=
  match singleDay? lower upper with
  | some day => [.on day]
  | none => lower.toList.map .since ++ upper.toList.map .before

theorem singleDay?_eq_some {lower upper : Option Date} {day : Date}
    (h : singleDay? lower upper = some day) :
    ∃ next, lower = some day ∧ upper = some next ∧ day.next? = some next := by
  unfold singleDay? at h
  split at h
  next since before =>
    obtain ⟨hnext, h⟩ := Option.ite_none_right_eq_some.mp h
    cases h
    exact ⟨before, rfl, rfl, hnext⟩
  next => cases h

theorem DayTest.ofBounds_hold_iff {lower upper day : Option Date} :
    (∀ test ∈ ofBounds lower upper, test.Holds day) ↔
      (∀ d ∈ lower, ∃ e ∈ day, d ≤ e) ∧ (∀ d ∈ upper, ∃ e ∈ day, e < d) := by
  unfold ofBounds
  split
  next d hd =>
    -- The upper bound is the day after, and so the days below it are those up to `d`.
    obtain ⟨next, rfl, rfl, hnext⟩ := singleDay?_eq_some hd
    simp only [List.mem_singleton, forall_eq, Option.mem_def, Option.some.injEq, forall_eq']
    constructor
    · intro h
      obtain ⟨e, he, rfl⟩ := h
      exact ⟨⟨e, he, le_rfl⟩, e, he, (Date.lt_next?_iff hnext e).mpr le_rfl⟩
    · intro h
      obtain ⟨⟨e, he, hle⟩, e', he', hlt⟩ := h
      obtain rfl : e = e' := Option.some.inj (he.symm.trans he')
      exact ⟨e, he, le_antisymm ((Date.lt_next?_iff hnext e).mp hlt) hle⟩
  next =>
    simp only [List.mem_append, List.mem_map, Option.mem_toList]
    constructor
    · intro h
      exact ⟨fun d hd => h _ (.inl ⟨d, hd, rfl⟩), fun d hd => h _ (.inr ⟨d, hd, rfl⟩)⟩
    · intro h test htest
      obtain ⟨hl, hu⟩ := h
      rcases htest with ⟨d, hd, rfl⟩ | ⟨d, hd, rfl⟩
      · exact hl d hd
      · exact hu d hd

/-! ### Header fields and flags -/

/-- The key for a header field. -/
def HeaderField.key (field : HeaderField) : SearchKey :=
  let word := upperCase (utf8 field.name)
  .header (if headerWords.contains word then word else utf8 field.name) (utf8 field.value)

theorem HeaderField.holds_key_iff (field : HeaderField) :
    field.key.Holds I m ↔ I.header (utf8 field.name) (utf8 field.value) m := by
  simp only [key, SearchKey.Holds]
  split
  next => exact I.header_congr (upperCase_upperCase _) _ _
  next => rfl

/-- The key for a flag. -/
def Flag.key : Flag → SearchKey
  | .system flag => .flag flag
  | .keyword name => .keyword (utf8 name)

theorem Flag.holds_key_iff (flag : Flag) : flag.key.Holds I m ↔ flag.IsSet I m := by
  cases flag <;> rfl

/-! ### Conditions -/

namespace Conditions

/-- The keys for the conditions, in the order in which they are written. -/
def keys (c : Conditions) : List SearchKey :=
  (if c.seqNums.isEmpty then [] else [.numbered c.seqNums.ranges])
    ++ (if c.uids.isEmpty then [] else [.uid c.uids.ranges])
    ++ (DayTest.ofBounds c.since c.before).map .arrived
    ++ (DayTest.ofBounds c.sentSince c.sentBefore).map .sent
    ++ c.headers.map HeaderField.key
    ++ c.body.map (fun s => .body (utf8 s))
    ++ c.text.map (fun s => .text (utf8 s))
    ++ c.flags.map Flag.key
    ++ c.notFlags.map (fun flag => .not flag.key)
    ++ (if c.larger = 0 then [] else [.larger c.larger])
    ++ (if c.smaller = 0 then [] else [.smaller c.smaller])

/-- A condition that is only written where it says something. -/
theorem optional_holds_iff {absent : Prop} [Decidable absent] {key : SearchKey} :
    (∀ k ∈ (if absent then [] else [key]), k.Holds I m) ↔ absent ∨ key.Holds I m := by
  by_cases h : absent
  · simp [h]
  · simp [h]

theorem keys_hold_iff (c : Conditions) : (∀ k ∈ c.keys, k.Holds I m) ↔ c.Hold I m := by
  simp only [keys, List.forall_mem_append, optional_holds_iff, List.forall_mem_map,
    SearchKey.Holds, DayTest.ofBounds_hold_iff, HeaderField.holds_key_iff, Flag.holds_key_iff]
  constructor
  · intro h
    obtain ⟨⟨⟨⟨⟨⟨⟨⟨⟨⟨seqNums, uids⟩, since, before⟩, sentSince, sentBefore⟩, headers⟩, body⟩,
      text⟩, flags⟩, notFlags⟩, larger⟩, smaller⟩ := h
    exact {
      seqNums, uids, sentSince, sentBefore, headers, body, text, flags, notFlags, larger, smaller
      since := by simpa using since
      before := by simpa using before }
  · intro h
    exact ⟨⟨⟨⟨⟨⟨⟨⟨⟨⟨h.seqNums, h.uids⟩, by simpa using h.since, by simpa using h.before⟩,
      h.sentSince, h.sentBefore⟩, h.headers⟩, h.body⟩, h.text⟩, h.flags⟩, h.notFlags⟩, h.larger⟩,
      h.smaller⟩

end Conditions

/-! ### Trees -/

/-- Keys in parentheses; `ALL` stands for none. -/
def SearchKey.groupOf (keys : List SearchKey) : SearchKey :=
  .group (if keys.isEmpty then [.all] else keys)

theorem SearchKey.holds_groupOf_iff {keys : List SearchKey} :
    (groupOf keys).Holds I m ↔ ∀ key ∈ keys, key.Holds I m := by
  cases keys with
  | nil => simp [groupOf, Holds, AllHold]
  | cons key keys => exact allHold_iff

mutual

/-- The key for criteria. -/
def Criteria.key : Criteria → SearchKey
  | ⟨conditions, excluded, alternatives⟩ =>
    .groupOf (conditions.keys ++ excludedKeys excluded ++ alternativeKeys alternatives)

/-- The keys for subtrees that must not match. -/
def excludedKeys : List Criteria → List SearchKey
  | [] => []
  | c :: rest => .not c.key :: excludedKeys rest

/-- The keys for pairs of subtrees. -/
def alternativeKeys : List (Criteria × Criteria) → List SearchKey
  | [] => []
  | (left, right) :: rest => .or left.key right.key :: alternativeKeys rest

end

mutual

/-- The key for criteria means what the criteria mean. -/
theorem Criteria.holds_key_iff : ∀ c : Criteria, c.key.Holds I m ↔ c.Matches I m
  | ⟨conditions, excluded, alternatives⟩ => by
    rw [Criteria.key, SearchKey.holds_groupOf_iff, List.forall_mem_append, List.forall_mem_append,
      conditions.keys_hold_iff, excludedKeys_hold_iff excluded,
      alternativeKeys_hold_iff alternatives, Criteria.Matches, and_assoc]

theorem excludedKeys_hold_iff :
    ∀ cs : List Criteria, (∀ key ∈ excludedKeys cs, key.Holds I m) ↔ NoneMatch I m cs
  | [] => by simp [excludedKeys, NoneMatch]
  | c :: rest => by
    rw [excludedKeys, List.forall_mem_cons, SearchKey.Holds, c.holds_key_iff,
      excludedKeys_hold_iff rest, NoneMatch]

theorem alternativeKeys_hold_iff : ∀ cs : List (Criteria × Criteria),
    (∀ key ∈ alternativeKeys cs, key.Holds I m) ↔ OneOfEachMatches I m cs
  | [] => by simp [alternativeKeys, OneOfEachMatches]
  | (left, right) :: rest => by
    rw [alternativeKeys, List.forall_mem_cons, SearchKey.Holds, left.holds_key_iff,
      right.holds_key_iff, alternativeKeys_hold_iff rest, OneOfEachMatches]

end

end ImapSearch
