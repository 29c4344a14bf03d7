import ImapSearch.Response
import ImapSearch.Scan.Value
import ImapSearch.SequenceSet.Text

/-!
# ImapSearch.Response.Extended

**Extended search results.** After its keyword an extended result may name the
search that it belongs to, as `(TAG "A0001")`, may say `UID`, and then lists
fields, each a name and a value. A field with a name that is not known is read
over, whatever the shape of its value, so that an extension of the server does
not hide the fields beside it. Of two fields with one name the later counts.
-/

namespace ImapSearch

/-- A field of an extended result. -/
inductive ResultField
  /-- The lowest number found. -/
  | min (n : Nat)
  /-- The highest number found. -/
  | max (n : Nat)
  /-- How many messages were found. -/
  | count (n : Nat)
  /-- The numbers found. -/
  | all (set : SequenceSet)
  /-- A field that this library does not know. -/
  | unknown
deriving DecidableEq, Repr

/-- The result with one more field. -/
def SearchData.addField (data : SearchData) : ResultField → SearchData
  | .min n => { data with min := some n }
  | .max n => { data with max := some n }
  | .count n => { data with count := some n }
  | .all set => { data with all := set }
  | .unknown => data

namespace Scan

/-- Fails unless nothing but a line terminator is left. -/
def expectLineEnd (keyword : String) : Scan Unit := do
  if ← lineEnds then return () else fail (.trailingData keyword)

theorem forward_expectLineEnd (keyword : String) : (expectLineEnd keyword).Forward := by
  refine forward_lineEnds.bind fun ends => ?_
  split
  · exact forward_pure _
  · exact forward_fail _

/-! ### Sequence sets -/

/-- Fails because a word is no sequence set. -/
def failSet {α : Type} (name : Bytes) : Scan α :=
  fun c => .error (.invalidSequenceSet (asciiText name)) c

/-- Reads a sequence set. -/
def sequenceSet : Scan SequenceSet := do
  match ← token with
  | .number n =>
    match SequenceSet.single? n with
    | some set => return set
    | none => fail .numberZero
  | .atom name =>
    match SequenceSet.decode? name with
    | some set => return set
    | none => failSet name
  | t => fail (.expectedSet t)

theorem forward_sequenceSet : sequenceSet.Forward := by
  refine forward_token.bind fun t => ?_
  split
  · split
    · exact forward_pure _
    · exact forward_fail _
  · split
    · exact forward_pure _
    · exact fun c => .refl c
  · exact forward_fail _

/-! ### Fields -/

/-- Reads the value of the field with the given name. -/
def resultValue (name : Bytes) : Scan ResultField :=
  if upperCase name = utf8 "MIN" then .min <$> number
  else if upperCase name = utf8 "MAX" then .max <$> number
  else if upperCase name = utf8 "COUNT" then .count <$> number
  else if upperCase name = utf8 "ALL" then .all <$> sequenceSet
  else (fun _ => .unknown) <$> discardValue

/-- Reads the rest of a field whose name was read. -/
def resultFieldOf (name : Bytes) : Scan ResultField := do
  expectSpace
  resultValue name

/-- Reads a field. -/
def resultField : Scan ResultField := do
  let name ← atom
  resultFieldOf name

theorem forward_resultValue (name : Bytes) : (resultValue name).Forward := by
  unfold resultValue
  split
  · exact forward_number.map _
  · split
    · exact forward_number.map _
    · split
      · exact forward_number.map _
      · split
        · exact forward_sequenceSet.map _
        · exact forward_discardValue.map _

theorem forward_resultFieldOf (name : Bytes) : (resultFieldOf name).Forward :=
  forward_expectSpace.bind fun _ => forward_resultValue name

theorem forward_resultField : resultField.Forward :=
  forward_atom.bind fun name => forward_resultFieldOf name

/-- Reads the fields from one whose name was read to the end of the line. -/
def resultFields (name : Bytes) : Scan (List ResultField) := do
  let field ← resultFieldOf name
  let fields ← spaced (some <$> resultField) (forward_resultField.map _)
  expectLineEnd "ESEARCH"
  return field :: fields

theorem forward_resultFields (name : Bytes) : (resultFields name).Forward :=
  (forward_resultFieldOf name).bind fun _ => (forward_spaced _ _).bind fun _ =>
    (forward_expectLineEnd _).bind fun _ => forward_pure _

/-! ### The response -/

/-- Reads the name of the search that a result belongs to. -/
def correlator : Scan Tag := do
  expect .listStart
  let name ← atom
  if upperCase name = utf8 "TAG" then
    expectSpace
    let tag ← string
    expect .listEnd
    return ⟨tag⟩
  else fail (.correlatorName name)

theorem forward_correlator : correlator.Forward := by
  refine (forward_expect _).bind fun _ => forward_atom.bind fun name => ?_
  split
  · exact forward_expectSpace.bind fun _ => forward_string.bind fun _ =>
      (forward_expect _).bind fun _ => forward_pure _
  · exact forward_fail _

/-- Reads on after a space, and ends the line where there is none. -/
def unlessLineEnds (next : Scan SearchData) (data : SearchData) : Scan SearchData := do
  if ← space then next
  else
    expectLineEnd "ESEARCH"
    return data

theorem forward_unlessLineEnds {next : Scan SearchData} (h : next.Forward) (data : SearchData) :
    (unlessLineEnds next data).Forward := by
  refine forward_space.bind fun found => ?_
  split
  · exact h
  · exact (forward_expectLineEnd _).bind fun _ => forward_pure _

/-- Reads the fields of a result, from one whose name was read, into the data of a search. -/
def resultData (data : SearchData) (name : Bytes) : Scan SearchData :=
  (fun fields => fields.foldl SearchData.addField data) <$> resultFields name

/-- Reads the word `UID`, if it comes first, and the fields. -/
def resultBody : Scan SearchData := do
  let name ← atom
  if upperCase name = utf8 "UID" then
    unlessLineEnds (do resultData { uid := true } (← atom)) { uid := true }
  else resultData {} name

/-- Reads an extended result after its keyword. -/
def extendedSearch : Scan Untagged := do
  if ← space then
    if (← peek) = some Ascii.openParen then
      let tag ← correlator
      .extendedSearch (some tag) <$> unlessLineEnds resultBody {}
    else .extendedSearch none <$> resultBody
  else
    expectLineEnd "ESEARCH"
    return .extendedSearch none {}

theorem forward_resultData (data : SearchData) (name : Bytes) : (resultData data name).Forward :=
  (forward_resultFields name).map _

theorem forward_resultBody : resultBody.Forward := by
  refine forward_atom.bind fun name => ?_
  split
  · exact forward_unlessLineEnds (forward_atom.bind fun name => forward_resultData _ name) _
  · exact forward_resultData _ _

theorem forward_extendedSearch : extendedSearch.Forward := by
  refine forward_space.bind fun found => ?_
  split
  · refine forward_peek.bind fun b => ?_
    split
    · exact forward_correlator.bind fun tag =>
        (forward_unlessLineEnds forward_resultBody _).map _
    · exact forward_resultBody.map _
  · exact (forward_expectLineEnd _).bind fun _ => forward_pure _

end Scan

end ImapSearch
