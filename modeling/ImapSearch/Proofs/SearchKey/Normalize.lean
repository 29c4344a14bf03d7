import ImapSearch.Proofs.SearchKey.OfCriteria
import Mathlib.Data.List.Forall2

/-!
# ImapSearch.Proofs.SearchKey.Normalize

**Criteria up to the case of some names.** A header field whose name is a search word
of its own is written by that word, so the case of its name is lost.
`Criteria.normalize` puts such names in upper case, at every depth, and leaves
everything else as it is. It changes none of the bytes (`Criteria.encode_normalize`),
and nothing else is lost: criteria with the same key are the same once they are
normalized (`Criteria.normalize_eq_of_key`).

A key for criteria lists the keys of its parts one part after the other. The kind of
a key says to which part it belongs (`SearchKey.part?`), so the parts can be told
from the list again (`Criteria.keysOf_eq`), though any of them may be empty.
-/

namespace ImapSearch

/-! ### Letters and bytes -/

theorem toUpper_of_le {c : Char} (h : 0x80 ≤ c.toNat) : c.toUpper = c := by
  unfold Char.toUpper
  refine dif_neg fun hletter => ?_
  have hle : c.toNat ≤ 122 := UInt32.le_iff_toNat_le.mp hletter.2
  omega

theorem toUpper_of_lt {c : Char} (h : c.toNat < 0x80) :
    c.toUpper.toNat < 0x80 ∧ c.toUpper.toUInt8 = Ascii.upper c.toUInt8 := by
  have hascii : ∀ n < 0x80, (Char.ofNat n).toUpper.toNat < 0x80 ∧
      (Char.ofNat n).toUpper.toUInt8 = Ascii.upper (Char.ofNat n).toUInt8 := by decide +kernel
  have hc := hascii c.toNat h
  rwa [Char.ofNat_toNat] at hc

theorem upper_of_le {b : UInt8} (h : 0x80 ≤ b) : Ascii.upper b = b := by
  unfold Ascii.upper
  grind

theorem utf8EncodeChar_toUpper (c : Char) :
    String.utf8EncodeChar c.toUpper = (String.utf8EncodeChar c).map Ascii.upper := by
  rcases utf8EncodeChar_cases c with ⟨hlt, hc⟩ | ⟨hle, hc⟩
  · obtain ⟨hupper, hbyte⟩ := toUpper_of_lt hlt
    rcases utf8EncodeChar_cases c.toUpper with ⟨-, hc'⟩ | ⟨hle, -⟩
    · rw [hc, hc', hbyte]
      rfl
    · omega
  · rw [toUpper_of_le hle, List.map_congr_left fun b hb => upper_of_le (hc b hb), List.map_id']

/-- Upper case in letters is upper case in bytes. -/
theorem utf8_toUpper (s : String) : utf8 s.toUpper = upperCase (utf8 s) := by
  have htext : s.toUpper.toList = s.toList.map Char.toUpper := String.toList_map
  rw [utf8_eq_flatMap, utf8_eq_flatMap, htext, upperCase, List.flatMap_map, List.map_flatMap]
  simp only [utf8EncodeChar_toUpper]

/-! ### Normalized criteria -/

/-- The field with its name in upper case, if that is a search word. -/
def HeaderField.normalize (field : HeaderField) : HeaderField :=
  if headerWords.contains (upperCase (utf8 field.name)) then
    { field with name := field.name.toUpper }
  else field

/-- The conditions with the names of header fields in upper case where those are search words. -/
def Conditions.normalize (c : Conditions) : Conditions :=
  { c with headers := c.headers.map HeaderField.normalize }

mutual

/-- The criteria with normalized conditions at every depth. -/
def Criteria.normalize : Criteria → Criteria
  | ⟨conditions, excluded, alternatives⟩ =>
    ⟨conditions.normalize, normalizeExcluded excluded, normalizeAlternatives alternatives⟩

/-- Criteria that must not match, normalized. -/
def normalizeExcluded : List Criteria → List Criteria
  | [] => []
  | c :: rest => c.normalize :: normalizeExcluded rest

/-- Pairs of criteria, normalized. -/
def normalizeAlternatives : List (Criteria × Criteria) → List (Criteria × Criteria)
  | [] => []
  | (left, right) :: rest => (left.normalize, right.normalize) :: normalizeAlternatives rest

end

/-! ### The bytes of normalized criteria -/

theorem HeaderField.item_normalize (field : HeaderField) : field.normalize.item = field.item := by
  unfold normalize
  split
  next hword =>
    have hmem := List.contains_iff_mem.mp hword
    simp only [item, utf8_toUpper, upperCase_upperCase, if_pos hmem]
  next => rfl

theorem Conditions.items_normalize (c : Conditions) : c.normalize.items = c.items := by
  have hheaders : (c.headers.map HeaderField.normalize).map HeaderField.item
      = c.headers.map HeaderField.item := by
    rw [List.map_map]
    exact List.map_congr_left fun field _ => field.item_normalize
  rw [items, items, normalize]
  dsimp only
  rw [hheaders]

mutual

/-- Normalizing changes none of the bytes. -/
theorem Criteria.encode_normalize : ∀ c : Criteria, c.normalize.encode = c.encode
  | ⟨conditions, excluded, alternatives⟩ => by
    rw [Criteria.normalize, Criteria.encode, Criteria.encode, conditions.items_normalize,
      excludedItems_normalize excluded, alternativeItems_normalize alternatives]

theorem excludedItems_normalize :
    ∀ cs : List Criteria, excludedItems (normalizeExcluded cs) = excludedItems cs
  | [] => rfl
  | c :: rest => by
    rw [normalizeExcluded, excludedItems, excludedItems, c.encode_normalize,
      excludedItems_normalize rest]

theorem alternativeItems_normalize : ∀ cs : List (Criteria × Criteria),
    alternativeItems (normalizeAlternatives cs) = alternativeItems cs
  | [] => rfl
  | (left, right) :: rest => by
    rw [normalizeAlternatives, alternativeItems, alternativeItems, left.encode_normalize,
      right.encode_normalize, alternativeItems_normalize rest]

end

/-! ### The parts of a key -/

/-- A part of criteria, by what its keys are about. -/
inductive Part
  | seqNums | uids | arrived | sent | headers | body | text | flags | notFlags | larger | smaller
  | excluded | alternatives
deriving DecidableEq, Repr

/-- The parts of criteria in the order in which they are written. -/
def Part.all : List Part :=
  [.seqNums, .uids, .arrived, .sent, .headers, .body, .text, .flags, .notFlags, .larger, .smaller,
    .excluded, .alternatives]

/-- The part of criteria to which a key belongs. -/
def SearchKey.part? : SearchKey → Option Part
  | .all | .group _ => none
  | .numbered _ => some .seqNums
  | .uid _ => some .uids
  | .flag _ | .keyword _ => some .flags
  | .arrived _ => some .arrived
  | .sent _ => some .sent
  | .header _ _ => some .headers
  | .body _ => some .body
  | .text _ => some .text
  | .larger _ => some .larger
  | .smaller _ => some .smaller
  | .not (.flag _) | .not (.keyword _) => some .notFlags
  | .not _ => some .excluded
  | .or _ _ => some .alternatives

/-- The keys of a part of criteria. -/
def Criteria.keysOf (c : Criteria) : Part → List SearchKey
  | .seqNums => if c.conditions.seqNums.isEmpty then [] else [.numbered c.conditions.seqNums.ranges]
  | .uids => if c.conditions.uids.isEmpty then [] else [.uid c.conditions.uids.ranges]
  | .arrived => (DayTest.ofBounds c.conditions.since c.conditions.before).map .arrived
  | .sent => (DayTest.ofBounds c.conditions.sentSince c.conditions.sentBefore).map .sent
  | .headers => c.conditions.headers.map HeaderField.key
  | .body => c.conditions.body.map fun s => .body (utf8 s)
  | .text => c.conditions.text.map fun s => .text (utf8 s)
  | .flags => c.conditions.flags.map Flag.key
  | .notFlags => c.conditions.notFlags.map fun flag => .not flag.key
  | .larger => if c.conditions.larger = 0 then [] else [.larger c.conditions.larger]
  | .smaller => if c.conditions.smaller = 0 then [] else [.smaller c.conditions.smaller]
  | .excluded => excludedKeys c.excluded
  | .alternatives => alternativeKeys c.alternatives

theorem Criteria.key_eq_groupOf (c : Criteria) : c.key = .groupOf (Part.all.flatMap c.keysOf) := by
  obtain ⟨conditions, excluded, alternatives⟩ := c
  simp [key, Conditions.keys, Part.all, keysOf]

theorem Flag.part?_key (flag : Flag) :
    flag.key.part? = some .flags ∧ (SearchKey.not flag.key).part? = some .notFlags := by
  cases flag <;> exact ⟨rfl, rfl⟩

theorem part?_of_mem_excludedKeys (cs : List Criteria) :
    ∀ key ∈ excludedKeys cs, key.part? = some .excluded := by
  induction cs with
  | nil => simp [excludedKeys]
  | cons c rest ih =>
    rw [excludedKeys, c.key_eq_groupOf]
    exact List.forall_mem_cons.mpr ⟨rfl, ih⟩

theorem part?_of_mem_alternativeKeys (cs : List (Criteria × Criteria)) :
    ∀ key ∈ alternativeKeys cs, key.part? = some .alternatives := by
  induction cs with
  | nil => simp [alternativeKeys]
  | cons pair rest ih =>
    rw [alternativeKeys]
    exact List.forall_mem_cons.mpr ⟨rfl, ih⟩

theorem Criteria.part?_of_mem_keysOf (c : Criteria) (p : Part) :
    ∀ key ∈ c.keysOf p, key.part? = some p := by
  have optional : ∀ {absent : Prop} [Decidable absent] {key : SearchKey}, key.part? = some p →
      ∀ k ∈ (if absent then [] else [key]), k.part? = some p := by
    intro absent _ key hkey
    by_cases habsent : absent
    · simp [habsent]
    · simpa [habsent] using hkey
  cases p <;> simp only [keysOf, List.forall_mem_map]
  case seqNums | uids | larger | smaller => exact optional rfl
  case arrived | sent | headers | body | text => exact fun _ _ => rfl
  case flags => exact fun flag _ => flag.part?_key.1
  case notFlags => exact fun flag _ => flag.part?_key.2
  case excluded => exact part?_of_mem_excludedKeys _
  case alternatives => exact part?_of_mem_alternativeKeys _

theorem Criteria.filter_keysOf (c : Criteria) (p q : Part) :
    (c.keysOf q).filter (·.part? = some p) = if q = p then c.keysOf q else [] := by
  split
  next heq =>
    rw [List.filter_eq_self]
    exact fun key hkey => decide_eq_true (heq ▸ c.part?_of_mem_keysOf q key hkey)
  next hne =>
    rw [List.filter_eq_nil_iff]
    intro key hkey
    simpa [c.part?_of_mem_keysOf q key hkey] using hne

/-- The keys of a part are told from the others by their kind. -/
theorem Criteria.filter_flatMap_keysOf (c : Criteria) (p : Part) :
    (Part.all.flatMap c.keysOf).filter (·.part? = some p) = c.keysOf p := by
  simp only [List.filter_flatMap, filter_keysOf]
  cases p <;> simp [Part.all]

/-- Criteria with the same key have the same keys in every part. -/
theorem Criteria.keysOf_eq {c d : Criteria} (h : c.key = d.key) (p : Part) :
    c.keysOf p = d.keysOf p := by
  -- The word that stands for no keys belongs to no part.
  have members : ∀ keys : List SearchKey,
      (if keys.isEmpty then [.all] else keys).filter (·.part? = some p)
        = keys.filter (·.part? = some p) := by
    intro keys
    cases keys <;> rfl
  rw [c.key_eq_groupOf, d.key_eq_groupOf, SearchKey.groupOf, SearchKey.groupOf,
    SearchKey.group.injEq] at h
  have hparts := congrArg (List.filter fun key => key.part? = some p) h
  rwa [members, members, c.filter_flatMap_keysOf, d.filter_flatMap_keysOf] at hparts

/-! ### From keys to criteria -/

theorem SequenceSet.ranges_inj {set other : SequenceSet} :
    set.ranges = other.ranges ↔ set = other := by
  refine ⟨fun h => ?_, congrArg ranges⟩
  -- The spans are the ranges that do not reach to `*`.
  have spans : ∀ s : SequenceSet, s.ranges.filter (!·.isDynamic) = s.spans.map .span := by
    intro s
    simp [ranges, List.filter_map, SeqRange.isDynamic, Function.comp_def]
  have dynamic : ∀ s : SequenceSet, s.ranges.filter (·.isDynamic) = s.dynamic.map .openEnded := by
    intro s
    simp [ranges, List.filter_map, SeqRange.isDynamic, Function.comp_def]
  have hspans : set.spans = other.spans := by
    refine List.map_injective_iff.mpr (fun _ _ => SeqRange.span.inj) ?_
    rw [← spans, h, spans]
  have hdynamic : set.dynamic = other.dynamic := by
    refine List.map_injective_iff.mpr (fun _ _ => SeqRange.openEnded.inj) ?_
    rw [← dynamic, h, dynamic]
  cases set
  cases other
  simp_all

/-- A value that has a key, unless it says nothing, is told from the key or from its absence. -/
theorem eq_of_optional {α : Type} {x y nothing : α} {P Q : Prop} [Decidable P] [Decidable Q]
    {key key' : SearchKey} (hP : P → x = nothing) (hQ : Q → y = nothing)
    (hkey : key = key' → x = y)
    (h : (if P then [] else [key]) = if Q then [] else [key']) : x = y := by
  by_cases hp : P
  · by_cases hq : Q
    · exact (hP hp).trans (hQ hq).symm
    · simp [hp, hq] at h
  · by_cases hq : Q
    · simp [hp, hq] at h
    · rw [if_neg hp, if_neg hq, List.cons.injEq] at h
      exact hkey h.1

/-- The bounds on a day that conditions come from. A single day stands for itself and the day after
it. -/
def DayTest.bounds : List DayTest → Option Date × Option Date
  | [] => (none, none)
  | .on day :: _ => (some day, day.next?)
  | .before upper :: _ => (none, some upper)
  | .since lower :: rest => (some lower, (bounds rest).2)

theorem DayTest.bounds_ofBounds (lower upper : Option Date) :
    bounds (ofBounds lower upper) = (lower, upper) := by
  unfold ofBounds
  cases hs : singleDay? lower upper with
  | some day =>
    obtain ⟨next, rfl, rfl, hnext⟩ := singleDay?_eq_some hs
    exact congrArg _ hnext
  | none => cases lower <;> cases upper <;> rfl

/-- Two bounds on a day are told from their conditions. -/
theorem DayTest.ofBounds_inj {lower upper lower' upper' : Option Date}
    (h : ofBounds lower upper = ofBounds lower' upper') : lower = lower' ∧ upper = upper' := by
  have hbounds := congrArg bounds h
  rwa [bounds_ofBounds, bounds_ofBounds, Prod.mk.injEq] at hbounds

theorem HeaderField.key_eq (field : HeaderField) :
    field.key = .header (utf8 field.normalize.name) (utf8 field.normalize.value) := by
  unfold key normalize
  dsimp only
  split
  next => rw [utf8_toUpper]
  next => rfl

theorem HeaderField.normalize_eq_of_key {field other : HeaderField}
    (h : field.key = other.key) : field.normalize = other.normalize := by
  rw [key_eq, key_eq, SearchKey.header.injEq, utf8_inj, utf8_inj] at h
  cases hf : field.normalize
  cases ho : other.normalize
  simp_all

theorem Flag.key_inj {flag other : Flag} (h : flag.key = other.key) : flag = other := by
  cases flag with
  | system flag =>
    cases other with
    | system other => exact congrArg _ (SearchKey.flag.inj h)
    | keyword name => cases h
  | keyword name =>
    cases other with
    | system other => cases h
    | keyword other => exact congrArg _ (utf8_inj.mp (SearchKey.keyword.inj h))

theorem Conditions.normalize_eq_of_keysOf {c d : Criteria} (h : ∀ p, c.keysOf p = d.keysOf p) :
    c.conditions.normalize = d.conditions.normalize := by
  have seqNums : c.conditions.seqNums = d.conditions.seqNums :=
    eq_of_optional SequenceSet.eq_empty_of_isEmpty SequenceSet.eq_empty_of_isEmpty
      (fun hkey => SequenceSet.ranges_inj.mp (SearchKey.numbered.inj hkey)) (h .seqNums)
  have uids : c.conditions.uids = d.conditions.uids :=
    eq_of_optional SequenceSet.eq_empty_of_isEmpty SequenceSet.eq_empty_of_isEmpty
      (fun hkey => SequenceSet.ranges_inj.mp (SearchKey.uid.inj hkey)) (h .uids)
  have arrived := DayTest.ofBounds_inj
    (List.map_injective_iff.mpr (fun _ _ => SearchKey.arrived.inj) (h .arrived))
  have sent := DayTest.ofBounds_inj
    (List.map_injective_iff.mpr (fun _ _ => SearchKey.sent.inj) (h .sent))
  have headers : c.conditions.headers.map HeaderField.normalize
      = d.conditions.headers.map HeaderField.normalize := by
    have hkeys : c.conditions.headers.map HeaderField.key
        = d.conditions.headers.map HeaderField.key := h .headers
    rw [← List.forall₂_eq_eq_eq, List.forall₂_map_left_iff, List.forall₂_map_right_iff] at hkeys ⊢
    exact hkeys.imp fun _ _ => HeaderField.normalize_eq_of_key
  have body : c.conditions.body = d.conditions.body :=
    List.map_injective_iff.mpr (fun _ _ hs => utf8_inj.mp (SearchKey.body.inj hs)) (h .body)
  have text : c.conditions.text = d.conditions.text :=
    List.map_injective_iff.mpr (fun _ _ hs => utf8_inj.mp (SearchKey.text.inj hs)) (h .text)
  have flags : c.conditions.flags = d.conditions.flags :=
    List.map_injective_iff.mpr (fun _ _ => Flag.key_inj) (h .flags)
  have notFlags : c.conditions.notFlags = d.conditions.notFlags :=
    List.map_injective_iff.mpr (fun _ _ hf => Flag.key_inj (SearchKey.not.inj hf)) (h .notFlags)
  have larger : c.conditions.larger = d.conditions.larger :=
    eq_of_optional id id SearchKey.larger.inj (h .larger)
  have smaller : c.conditions.smaller = d.conditions.smaller :=
    eq_of_optional id id SearchKey.smaller.inj (h .smaller)
  simp only [normalize, seqNums, uids, arrived, sent, headers, body, text, flags, notFlags, larger,
    smaller]

mutual

theorem Criteria.normalize_eq_of_key : ∀ {c d : Criteria}, c.key = d.key →
    c.normalize = d.normalize
  | ⟨conditions, excluded, alternatives⟩, ⟨conditions', excluded', alternatives'⟩, h => by
    have hparts := Criteria.keysOf_eq h
    rw [Criteria.normalize, Criteria.normalize, normalizeExcluded_eq_of_keys (hparts .excluded),
      normalizeAlternatives_eq_of_keys (hparts .alternatives)]
    exact congrArg (Criteria.mk · _ _) (Conditions.normalize_eq_of_keysOf hparts)

theorem normalizeExcluded_eq_of_keys : ∀ {cs ds : List Criteria},
    excludedKeys cs = excludedKeys ds → normalizeExcluded cs = normalizeExcluded ds
  | [], [], _ => rfl
  | c :: cs, d :: ds, h => by
    rw [excludedKeys, excludedKeys, List.cons.injEq, SearchKey.not.injEq] at h
    rw [normalizeExcluded, normalizeExcluded, Criteria.normalize_eq_of_key h.1,
      normalizeExcluded_eq_of_keys h.2]

theorem normalizeAlternatives_eq_of_keys : ∀ {cs ds : List (Criteria × Criteria)},
    alternativeKeys cs = alternativeKeys ds → normalizeAlternatives cs = normalizeAlternatives ds
  | [], [], _ => rfl
  | (left, right) :: cs, (left', right') :: ds, h => by
    rw [alternativeKeys, alternativeKeys, List.cons.injEq, SearchKey.or.injEq] at h
    rw [normalizeAlternatives, normalizeAlternatives, Criteria.normalize_eq_of_key h.1.1,
      Criteria.normalize_eq_of_key h.1.2, normalizeAlternatives_eq_of_keys h.2]

end

end ImapSearch
