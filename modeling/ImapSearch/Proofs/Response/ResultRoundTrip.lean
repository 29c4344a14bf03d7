import ImapSearch.Proofs.Response.ExtendedResult
import ImapSearch.Proofs.SequenceSet.RoundTrip

/-!
# ImapSearch.Proofs.Response.ResultRoundTrip

**Extended results, read back.** A server that answers a search writes the fields that
the search asked for: numbers under `MIN`, `MAX` and `COUNT`, and a set under `ALL`
(`ResultForm`). It may write them in any order and more than once, and leaves out the
tag of the search, the word `UID` or all of the fields as it likes.

A number is one word, and so is a set without `*`. A set of one number is written as
that number, so the word of a set is a number or an atom (`FoundSet.read`). Every field
thus says what it was written for (`FieldForm.meaning?_toText`). Of the fields with one
name the last counts (`FieldForm.foldl_addField`), and the result is read back as a
whole (`ResultForm.parse_bytes`).
-/

namespace ImapSearch

/-! ### Sets that a search found -/

/-- The numbers that a search found: some, and without `*`. -/
structure FoundSet where
  set : SequenceSet
  reachable : set.Reachable
  not_isEmpty : set.isEmpty = false
  not_isDynamic : set.isDynamic = false

namespace SequenceSet

/-- A set without `*` is a single number, or it is written in more than digits. -/
theorem single_or_not_isDigit {set : SequenceSet} (hd : set.dynamic = [])
    (hne : set.isEmpty = false) :
    (∃ n, set = ⟨[⟨n, n⟩], []⟩) ∨ ∃ b ∈ set.encode, ¬ Ascii.isDigit b := by
  obtain ⟨spans, dynamic⟩ := set
  subst hd
  cases spans with
  | nil => cases hne
  | cons s spans =>
    cases spans with
    | nil =>
      obtain ⟨first, last⟩ := s
      by_cases heq : first = last
      · subst heq
        exact .inl ⟨first, rfl⟩
      · refine .inr ⟨Ascii.colon, ?_, by decide⟩
        simp [encode, ranges, SeqRange.encode, heq]
    | cons t spans =>
      refine .inr ⟨Ascii.comma, ?_, by decide⟩
      simp [encode, ranges, List.intercalate_cons_cons]

theorem single?_eq {n : Nat} (h : isNumber n) : single? n = some ⟨[⟨n, n⟩], []⟩ := by
  simp [single?, range?, addRange, insert, insertSpan, empty, Span.between, h]

end SequenceSet

namespace Scan

/-- The digits of a number of 32 bits are that number. -/
theorem wordToken?_encode (n : UInt32) :
    wordToken? (Decimal.encode n.toNat) = some (.number n.toNat) := by
  have hlt : n.toNat < numberBound := n.toNat_lt
  rw [wordToken?_of_isDigit fun _ => Decimal.isDigit_of_mem_encode,
    Decimal.decodeBelow?_eq_filter, Decimal.decode?_encode]
  simp [Option.filter, hlt]

end Scan

namespace FoundSet

theorem isSetByte_of_mem_encode (found : FoundSet) {b : UInt8} (hb : b ∈ found.set.encode) :
    Scan.isSetByte b := by
  have hd := SequenceSet.dynamic_eq_nil found.not_isDynamic
  rcases SequenceSet.mem_encode_of_dynamic_eq_nil hd hb with h | rfl | rfl
  · simp [Scan.isSetByte, h]
  · decide
  · decide

/-- The word that a set is written as. -/
def word (found : FoundSet) : Word where
  bytes := found.set.encode
  ne_nil := SequenceSet.encode_ne_nil found.not_isEmpty
  isAtom _ hb := Scan.isAtomByte_of_isSetByte (found.isSetByte_of_mem_encode hb)

/-- The word of a set is read as that set, be it a number or an atom. -/
theorem read (found : FoundSet) :
    (wordToken? found.set.encode).bind Token.sequenceSet? = some found.set := by
  have hd := SequenceSet.dynamic_eq_nil found.not_isDynamic
  rcases SequenceSet.single_or_not_isDigit hd found.not_isEmpty with ⟨n, hset⟩ | hmark
  · have hvalid : (⟨n, n⟩ : Span).Valid := found.reachable.valid.spans _ (by simp [hset])
    have hn : isNumber n := isNumber_iff.mpr ⟨hvalid.first_pos, hvalid.last_le⟩
    have hlt : n < UInt32.size := Nat.lt_succ_of_le hvalid.last_le
    have hbytes : found.set.encode = Decimal.encode (UInt32.ofNat n).toNat := by
      rw [UInt32.toNat_ofNat_of_lt' hlt, hset]
      simp [SequenceSet.encode, SequenceSet.ranges, SeqRange.encode]
    rw [hbytes, Scan.wordToken?_encode, UInt32.toNat_ofNat_of_lt' hlt, hset]
    exact SequenceSet.single?_eq hn
  · rw [Scan.wordToken?_eq_atom (fun _ hb => found.isSetByte_of_mem_encode hb) hmark]
    exact found.reachable.decode?_encode found.not_isEmpty

end FoundSet

/-! ### Fields -/

/-- A field that holds a number. -/
inductive NumberField
  | min
  | max
  | count
deriving DecidableEq

namespace NumberField

/-- The name of the field. -/
def name : NumberField → String
  | .min => "MIN"
  | .max => "MAX"
  | .count => "COUNT"

/-- The field with a number. -/
def value : NumberField → Nat → ResultField
  | .min => .min
  | .max => .max
  | .count => .count

end NumberField

/-- A field of an extended result. Its name may be written in any case. -/
inductive FieldForm
  /-- A field that holds a number. -/
  | number (field : NumberField) (name : Keyword field.name) (n : UInt32)
  /-- The numbers found. -/
  | all (name : Keyword "ALL") (found : FoundSet)

namespace FieldForm

/-- The field that is written. -/
def value : FieldForm → ResultField
  | .number field _ n => field.value n.toNat
  | .all _ found => .all found.set

/-- The number of the field, if it is of the given kind. -/
def number? (kind : NumberField) : FieldForm → Option Nat
  | .number field _ n => if field = kind then some n.toNat else none
  | .all _ _ => none

/-- The numbers found, if the field lists them. -/
def set? : FieldForm → Option SequenceSet
  | .number _ _ _ => none
  | .all _ found => some found.set

/-- The digits of a number, as a word. -/
def numberWord (n : UInt32) : Word where
  bytes := Decimal.encode n.toNat
  ne_nil := Decimal.encode_ne_nil _
  isAtom _ hb := isAtomByte_of_isDigit (Decimal.isDigit_of_mem_encode hb)

theorem name_mem_knownNames (field : NumberField) : utf8 field.name ∈ knownNames := by
  cases field <;> decide +kernel

/-- The field as it is written: its name, a space, and the digits of the number or the text of the
set. -/
def toText : FieldForm → FieldText
  | .number field name n =>
    .known name.toLetterWord (name.isKeyword ▸ name_mem_knownNames field) (numberWord n)
  | .all name found =>
    .known name.toLetterWord (name.isKeyword ▸ by decide +kernel) found.word

theorem knownField?_number {field : NumberField} (name : Keyword field.name) (n : Nat) :
    knownField? name.bytes (.number n) = some (field.value n) := by
  have hmax : utf8 "MAX" ≠ utf8 "MIN" := by decide +kernel
  have hcount : utf8 "COUNT" ≠ utf8 "MIN" ∧ utf8 "COUNT" ≠ utf8 "MAX" := by decide +kernel
  rw [knownField?, name.isKeyword]
  cases field with
  | min => exact if_pos rfl
  | max => exact (if_neg hmax).trans (if_pos rfl)
  | count => exact (if_neg hcount.1).trans ((if_neg hcount.2).trans (if_pos rfl))

theorem knownField?_all (name : Keyword "ALL") (t : Token) :
    knownField? name.bytes t = t.sequenceSet?.map .all := by
  have hne : utf8 "ALL" ≠ utf8 "MIN" ∧ utf8 "ALL" ≠ utf8 "MAX" ∧ utf8 "ALL" ≠ utf8 "COUNT" := by
    decide +kernel
  rw [knownField?, name.isKeyword, if_neg hne.1, if_neg hne.2.1, if_neg hne.2.2]

/-- A field means what it was written for. -/
theorem meaning?_toText (f : FieldForm) : f.toText.meaning? = some f.value := by
  cases f with
  | number field name n =>
    show (wordToken? (Decimal.encode n.toNat)).bind (knownField? name.bytes) = _
    rw [Scan.wordToken?_encode]
    exact knownField?_number name n.toNat
  | all name found =>
    have hread := congrArg (Option.map ResultField.all) found.read
    rw [Option.map_bind] at hread
    show (wordToken? found.set.encode).bind (knownField? name.bytes) = _
    rw [funext (knownField?_all name)]
    exact hread

theorem meanings?_toText (fields : List FieldForm) :
    FieldText.meanings? (fields.map toText) = some (fields.map value) := by
  induction fields with
  | nil => rfl
  | cons f fields ih =>
    rw [List.map_cons, FieldText.meanings?, meaning?_toText, ih]
    rfl

/-- Of the fields with one name the last counts. -/
theorem foldl_addField (fields : List FieldForm) (data : SearchData) :
    (fields.map value).foldl SearchData.addField data =
      { uid := data.uid
        min := (fields.filterMap (number? .min)).getLast?.or data.min
        max := (fields.filterMap (number? .max)).getLast?.or data.max
        count := (fields.filterMap (number? .count)).getLast?.or data.count
        all := (fields.filterMap set?).getLast?.getD data.all } := by
  induction fields generalizing data with
  | nil => rfl
  | cons field fields ih =>
    rw [List.map_cons, List.foldl_cons, ih]
    cases field with
    | number kind name n =>
      cases kind <;> simp [value, NumberField.value, SearchData.addField, number?, set?,
        List.getLast?_cons]
    | all name found =>
      simp [value, SearchData.addField, number?, set?, List.getLast?_cons]

end FieldForm

/-! ### Results -/

/-- A string in one of its forms: between quotes, if it has no line break, or as a literal. -/
inductive StringForm
  | quoted (q : QuotedText)
  | literal (text : String) (digits : Bytes) (plus : Bool)
    (size : Decimal.decodeBelow? sizeBound digits = some (utf8 text).length)

namespace StringForm

/-- The string. -/
def text : StringForm → String
  | .quoted q => q.text
  | .literal text _ _ _ => text

/-- The string as it is written. -/
def toScalar : StringForm → Scalar
  | .quoted q => .quoted q
  | .literal text digits plus size => .literal ⟨digits, plus, utf8 text, size⟩

theorem text?_toScalar (s : StringForm) : s.toScalar.token?.bind Token.text? = some s.text := by
  cases s with
  | quoted q => rfl
  | literal text digits plus size => exact ofUtf8?_utf8 text

end StringForm

/-- A result names no search if it has no tag, or an empty one. -/
theorem correlator?_eq_none_iff (tag : Option Tag) :
    correlator? tag = none ↔ tag = none ∨ tag = some ⟨""⟩ := by
  cases tag with
  | none => simp [correlator?]
  | some tag =>
    obtain ⟨text⟩ := tag
    simp [correlator?, Option.filter]

/-- An extended result. Each of its words may be written in any case. -/
structure ResultForm where
  keyword : Keyword "ESEARCH"
  /-- The tag of the search, behind the word `TAG`. -/
  tag : Option (Keyword "TAG" × StringForm)
  uid : Option (Keyword "UID")
  fields : List FieldForm

namespace ResultForm

/-- The result as it is written. -/
def toText (r : ResultForm) : ResultText where
  keyword := r.keyword
  correlator := r.tag.map fun named => (named.1, named.2.toScalar)
  uid := r.uid
  fields := r.fields.map FieldForm.toText

/-- The bytes of the result, without the line terminator. -/
def bytes (r : ResultForm) : Bytes := r.toText.bytes

/-- The tag that the result names. -/
def tag? (r : ResultForm) : Option Tag := r.tag.map fun named => ⟨named.2.text⟩

/-- What the result says: under every name the value of the last field with that name. -/
def data (r : ResultForm) : SearchData where
  uid := r.uid.isSome
  min := (r.fields.filterMap (·.number? .min)).getLast?
  max := (r.fields.filterMap (·.number? .max)).getLast?
  count := (r.fields.filterMap (·.number? .count)).getLast?
  all := (r.fields.filterMap (·.set?)).getLast?.getD .empty

theorem tag?_toText (r : ResultForm) : ResultText.tag? r.toText.correlator = some r.tag? := by
  unfold toText tag?
  cases r.tag with
  | none => rfl
  | some named =>
    show (named.2.toScalar.token?.bind Token.text?).map _ = _
    rw [named.2.text?_toScalar]
    rfl

theorem data?_toText (r : ResultForm) :
    ResultText.data? r.toText.uid r.toText.fields = some r.data := by
  show FieldText.addTo? { uid := r.uid.isSome } (r.fields.map FieldForm.toText) = _
  rw [FieldText.addTo?, FieldForm.meanings?_toText, Option.map_some, FieldForm.foldl_addField]
  simp [data, SequenceSet.empty]

theorem meaning?_toText (r : ResultForm) :
    r.toText.meaning? = some (.extendedSearch r.tag? r.data) := by
  rw [ResultText.meaning?, r.tag?_toText, r.data?_toText]
  rfl

/-- An extended result that is written is read back: its tag, whether it says `UID`, and under
every name the value of the last field with that name. It names no search if it has no tag or an
empty one. -/
theorem parse_bytes (r : ResultForm) :
    Response.parse (r.bytes ++ crlf) = .ok (.untagged (.extendedSearch r.tag? r.data)) ∧
    (correlator? r.tag? = none ↔ r.tag? = none ∨ r.tag? = some ⟨""⟩) :=
  ⟨ResultText.parse_eq_ok r.meaning?_toText, correlator?_eq_none_iff r.tag?⟩

/-- Names in both cases, and fields that come twice. -/
example : Response.parse
    (utf8 "* ESEARCH (tag \x7b2+\x7d\r\nA5) uid count 9 ALL 4 all 1:3,7 COUNT 4\r\n") =
      .ok (.untagged (.extendedSearch (some ⟨"A5"⟩)
        { uid := true, count := some 4, all := ⟨[⟨1, 3⟩, ⟨7, 7⟩], []⟩ })) := by
  decide +kernel

end ResultForm

end ImapSearch
