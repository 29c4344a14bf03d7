import ImapSearch.Proofs.Response.Extension

/-!
# ImapSearch.Proofs.Response.ExtendedResult

**Extended results, as they are written.** A `ResultText` is an extended result in
the grammar of the protocol: keywords in any case, a correlator in any form of
string, and fields in any order, those of extensions among them. It says of itself
what it means (`ResultText.meaning?`), and that is what the parser makes of it
(`ResultText.toOption_parse`).

So a field of an extension does not disturb the fields beside it if its value is read
over (`ResultText.meaning?_of_isSkipped`). One that is not hides the whole result
(`ResultText.meaning?_of_not_isSkipped`), and a number that takes more than 32 bits is
among those (`ExtensionValue.isSkipped_number`).
-/

namespace ImapSearch

/-! ### Fields -/

/-- A keyword, in any case. -/
structure Keyword (name : String) extends LetterWord where
  isKeyword : upperCase bytes = utf8 name

/-- The names of the fields that are known. -/
def knownNames : List Bytes := [utf8 "MIN", utf8 "MAX", utf8 "COUNT", utf8 "ALL"]

/-- A field of an extended result, as it is written. -/
inductive FieldText
  /-- A field that is known. Its value can be nothing but a word. -/
  | known (name : LetterWord) (h : upperCase name.bytes ∈ knownNames) (value : Word)
  /-- A field of an extension. -/
  | extension (name : LetterWord) (h : upperCase name.bytes ∉ utf8 "UID" :: knownNames)
      (value : ExtensionValue)

/-- The number that a token is. -/
def Token.number? : Token → Option Nat
  | .number n => some n
  | _ => none

/-- The sequence set that a token is. -/
def Token.sequenceSet? : Token → Option SequenceSet
  | .number n => SequenceSet.single? n
  | .atom name => SequenceSet.decode? name
  | _ => none

/-- The known field with the given name, whose value is a token. -/
def knownField? (name : Bytes) (value : Token) : Option ResultField :=
  if upperCase name = utf8 "MIN" then value.number?.map .min
  else if upperCase name = utf8 "MAX" then value.number?.map .max
  else if upperCase name = utf8 "COUNT" then value.number?.map .count
  else value.sequenceSet?.map .all

namespace FieldText

/-- The name of a field. -/
def name : FieldText → LetterWord
  | .known name _ _ | .extension name _ _ => name

/-- The bytes of the value of a field. -/
def valueBytes : FieldText → Bytes
  | .known _ _ value => value.bytes
  | .extension _ _ value => value.bytes

/-- The bytes of a field. -/
def bytes (field : FieldText) : Bytes := field.name.bytes ++ Ascii.space :: field.valueBytes

/-- What a field means, if its value can be read. -/
def meaning? : FieldText → Option ResultField
  | .known name _ value => (wordToken? value.bytes).bind (knownField? name.bytes)
  | .extension _ _ value => if value.isSkipped then some .unknown else none

/-- Whether the field is known. -/
def isKnown : FieldText → Bool
  | .known _ _ _ => true
  | .extension _ _ _ => false

/-- Whether the value of the field is read over, if the field is one of an extension. -/
def isSkipped : FieldText → Bool
  | .known _ _ _ => true
  | .extension _ _ value => value.isSkipped

theorem name_ne_uid (field : FieldText) : upperCase field.name.bytes ≠ utf8 "UID" := by
  intro huid
  cases field with
  | known word h value =>
    have huid : upperCase word.bytes = utf8 "UID" := huid
    rw [huid] at h
    exact absurd h (by decide +kernel)
  | extension word h value => exact h (List.mem_cons.mpr (.inl huid))

end FieldText

namespace Scan

/-! ### Reading a field -/

/-- The name of a field, or `NIL` in upper case. -/
theorem gives_atom_letterWord (w : LetterWord) : ∃ name, upperCase name = upperCase w.bytes ∧
    atom.Gives EndsWord w.bytes (some name) := by
  by_cases hnil : upperCase w.bytes = utf8 "NIL"
  · have hword := gives_word w.not_opensWithPunctuation
    rw [w.wordToken?_eq, if_pos hnil] at hword
    refine ⟨utf8 "NIL", ?_, hword.finish (gives_pure _)⟩
    rw [hnil]
    decide +kernel
  · exact ⟨w.bytes, rfl, (gives_letterWord hnil).finish (gives_pure _)⟩

theorem gives_number (w : Word) :
    number.Gives EndsWord w.bytes ((wordToken? w.bytes).bind Token.number?) := by
  refine gives_token_bind (s := .word w) (fun t _ => ?_) ?_
  · cases t <;> first | exact gives_pure _ | exact gives_fail _ _
  · rintro t (rfl | rfl) bs <;> exact gives_fail _ bs

theorem gives_sequenceSet (w : Word) :
    sequenceSet.Gives EndsWord w.bytes ((wordToken? w.bytes).bind Token.sequenceSet?) := by
  refine gives_token_bind (s := .word w) (fun t _ => ?_) ?_
  · cases t with
    | number n =>
      rw [Token.sequenceSet?]
      dsimp only
      cases SequenceSet.single? n with
      | none => exact gives_fail _ _
      | some set => exact gives_pure set
    | atom name =>
      rw [Token.sequenceSet?]
      dsimp only
      cases SequenceSet.decode? name with
      | none => exact fun _ _ _ => ⟨_, _, rfl⟩
      | some set => exact gives_pure set
    | _ => exact gives_fail _ _
  · rintro t (rfl | rfl) bs <;> exact gives_fail _ bs

/-- Which field is read depends on the name in upper case. -/
theorem resultValue_congr {name name' : Bytes} (h : upperCase name = upperCase name') :
    resultValue name = resultValue name' := by
  rw [resultValue, resultValue, h]

theorem gives_resultValue_known {name : Bytes} (h : upperCase name ∈ knownNames) (value : Word) :
    (resultValue name).Gives EndsWord value.bytes
      ((wordToken? value.bytes).bind (knownField? name)) := by
  have hnumber : ∀ f : Nat → ResultField, (f <$> number).Gives EndsWord value.bytes
      ((wordToken? value.bytes).bind fun t => t.number?.map f) := by
    intro f
    have hmap := (gives_number value).map f
    rw [Option.map_bind] at hmap
    exact hmap
  unfold resultValue knownField?
  split
  · exact hnumber .min
  · split
    · exact hnumber .max
    · split
      · exact hnumber .count
      · have hall : upperCase name = utf8 "ALL" := by simp_all [knownNames]
        have hset := (gives_sequenceSet value).map ResultField.all
        rw [Option.map_bind] at hset
        rw [if_pos hall]
        exact hset

/-- The value of an extension is read over. -/
theorem gives_resultValue_extension {name : Bytes}
    (h : upperCase name ∉ utf8 "UID" :: knownNames) {Q : Bytes → Prop} {bs : Bytes}
    {result : Option Unit} (hvalue : discardValue.Gives Q bs result) :
    (resultValue name).Gives Q bs (result.map fun _ => .unknown) := by
  simp only [knownNames, List.mem_cons, List.not_mem_nil, or_false, not_or] at h
  obtain ⟨-, hmin, hmax, hcount, hall⟩ := h
  rw [resultValue, if_neg hmin, if_neg hmax, if_neg hcount, if_neg hall]
  exact hvalue.map _

theorem gives_resultField {Q : Bytes → Prop} (name : LetterWord) {value : Bytes}
    {result : Option ResultField} (h : (resultValue name.bytes).Gives Q value result) :
    resultField.Gives Q (name.bytes ++ ([Ascii.space] ++ value)) result := by
  obtain ⟨name', hname, hatom⟩ := gives_atom_letterWord name
  refine hatom.then ?_ fun rest _ => endsWord_cons (by decide) _
  rw [← resultValue_congr hname] at h
  exact gives_expectSpace.before h

/-! ### Reading the fields up to the end of the line -/

/-- Nothing but a line terminator is left, judged by the next byte. -/
def AtLineEnd (rest : Bytes) : Prop := rest.head? = none ∨ rest.head? = some Ascii.cr

theorem atLineEnd_iff {c : Cursor} : c.atLineEnd ↔ AtLineEnd c.rest := by
  rw [Cursor.atLineEnd, Bool.or_eq_true, beq_iff_eq, beq_iff_eq, AtLineEnd, Cursor.peek]

theorem AtLineEnd.endsWord {rest : Bytes} (h : AtLineEnd rest) : EndsWord rest := by
  intro b hb
  rcases h with h | h <;> rw [h] at hb <;> cases hb
  decide

/-- Where the line ends there is no space. -/
theorem AtLineEnd.head?_ne_space {rest : Bytes} (h : AtLineEnd rest) :
    rest.head? ≠ some Ascii.space := by
  rcases h with h | h <;> rw [h] <;> decide

theorem forward_some_resultField : Forward (some <$> resultField) := forward_resultField.map some

/-- Reads fields, each with a space in front of it. -/
def moreFields : Scan (List ResultField) :=
  spaced (some <$> resultField) forward_some_resultField

/-- Reads fields, each with a space in front of it, up to the end of the line. -/
def fieldsToEnd : Scan (List ResultField) := do
  let fields ← moreFields
  expectLineEnd "ESEARCH"
  return fields

/-- Reads a field and those behind it, up to the end of the line. -/
def fieldAndMore : Scan (List ResultField) := do
  let field ← resultField
  (field :: ·) <$> fieldsToEnd

theorem gives_expectLineEnd (keyword : String) :
    (expectLineEnd keyword).Gives AtLineEnd [] (some ()) := by
  intro pos rest hrest
  have hends : (⟨pos, rest⟩ : Cursor).atLineEnd := atLineEnd_iff.mpr hrest
  simp only [expectLineEnd, bind_apply, lineEnds, List.nil_append, hends]
  rfl

theorem gives_fieldsToEnd_nil : fieldsToEnd.Gives AtLineEnd [] (some []) := by
  have hmore : moreFields.Gives AtLineEnd [] (some []) :=
    fun _ _ hrest => spaced_of_not_space hrest.head?_ne_space
  exact hmore.finish ((gives_expectLineEnd "ESEARCH").finish (gives_pure []))

/-- An asterisk is neither a field nor the end of the line. -/
theorem gives_fieldsToEnd_star {P : Bytes → Prop} (bs : Bytes) :
    fieldsToEnd.Gives P (Ascii.star :: bs) none := by
  intro pos rest _
  have hmore : moreFields ⟨pos, Ascii.star :: bs ++ rest⟩ =
      .ok [] ⟨pos, Ascii.star :: bs ++ rest⟩ := by
    refine spaced_of_not_space ?_
    rw [List.cons_append, List.head?_cons]
    decide
  rw [fieldsToEnd, bind_apply, hmore]
  exact ⟨_, _, rfl⟩

/-- Behind a space there is a field. -/
theorem moreFields_space (pos : Nat) (bs : Bytes) : moreFields ⟨pos, Ascii.space :: bs⟩ =
    (resultField >>= fun field => (field :: ·) <$> moreFields) ⟨pos + 1, bs⟩ := by
  rw [moreFields, spaced_space, bind_map_left]
  rfl

theorem fieldsToEnd_space (pos : Nat) (bs : Bytes) :
    fieldsToEnd ⟨pos, Ascii.space :: bs⟩ = fieldAndMore ⟨pos + 1, bs⟩ := by
  rw [fieldsToEnd, fieldAndMore, bind_apply, bind_apply, moreFields_space, bind_apply]
  cases resultField ⟨pos + 1, bs⟩ with
  | error e d => rfl
  | ok field d =>
    dsimp only
    rw [map_apply, map_apply, fieldsToEnd, bind_apply]
    cases moreFields d with
    | error e d' => rfl
    | ok fields d' =>
      dsimp only
      rw [bind_apply, bind_apply]
      cases expectLineEnd "ESEARCH" d' <;> rfl

/-- A field, read together with what follows it. Where its value cannot be read over, either the
field fails or what follows it does. -/
theorem gives_field {P : Bytes → Prop} {cs : Bytes} {result : Option (List ResultField)}
    (h : fieldsToEnd.Gives P cs result) (hP : ∀ rest, P rest → EndsWord (cs ++ rest))
    (field : FieldText) : fieldAndMore.Gives P (field.bytes ++ cs)
      (field.meaning?.bind fun a => result.map (a :: ·)) := by
  cases field with
  | known name hname value =>
    have hfield := gives_resultField name (gives_resultValue_known hname value)
    exact hfield.bind (fun a _ => h.map _) hP
  | extension name hname value =>
    rw [FieldText.meaning?]
    by_cases hskipped : value.isSkipped
    · have hread := gives_resultValue_extension hname (gives_discardValue hskipped)
      rw [if_pos hskipped]
      exact (gives_resultField name hread).then (h.map _) hP
    · rw [if_neg hskipped]
      rcases not_gives_discardValue hskipped with hfails | ⟨front, back, hbytes, hfront⟩
      · have hread := gives_resultValue_extension hname hfails
        exact (gives_resultField name hread).bind_none hP
      · -- The asterisk at which reading stops stands where the next field should begin.
        have hread := gives_resultValue_extension hname hfront
        have hstar := (gives_fieldsToEnd_star (back ++ cs) (P := P)).map (ResultField.unknown :: ·)
        have hsplit : FieldText.bytes (.extension name hname value) ++ cs =
            (name.bytes ++ ([Ascii.space] ++ front)) ++ (Ascii.star :: (back ++ cs)) := by
          simp [FieldText.bytes, FieldText.name, FieldText.valueBytes, hbytes]
        rw [hsplit]
        exact (gives_resultField name hread).then hstar fun rest _ => endsWord_cons (by decide) _

end Scan

namespace FieldText

/-- The bytes of fields, each with a space in front of it. -/
def listBytes (fields : List FieldText) : Bytes :=
  fields.flatMap fun field => Ascii.space :: field.bytes

/-- What fields mean, if the values of all can be read. -/
def meanings? : List FieldText → Option (List ResultField)
  | [] => some []
  | field :: fields => field.meaning?.bind fun a => (meanings? fields).map (a :: ·)

/-- What fields come to, added to data. -/
def addTo? (data : SearchData) (fields : List FieldText) : Option SearchData :=
  (meanings? fields).map fun results => results.foldl SearchData.addField data

end FieldText

namespace Scan

theorem endsWord_listBytes (fields : List FieldText) {rest : Bytes} (h : AtLineEnd rest) :
    EndsWord (FieldText.listBytes fields ++ rest) := by
  cases fields with
  | nil => exact h.endsWord
  | cons field fields => exact endsWord_cons (by decide) _

theorem Gives.fieldsToEnd {P : Bytes → Prop} {bs : Bytes} {result : Option (List ResultField)}
    (h : fieldAndMore.Gives P bs result) : fieldsToEnd.Gives P (Ascii.space :: bs) result := by
  cases result with
  | none =>
    intro pos rest hrest
    rw [List.cons_append, fieldsToEnd_space]
    exact h _ rest hrest
  | some fields =>
    intro pos rest hrest
    rw [List.cons_append, fieldsToEnd_space, h _ rest hrest, List.length_cons, Nat.add_right_comm,
      Nat.add_assoc]

theorem gives_fieldsToEnd (fields : List FieldText) :
    fieldsToEnd.Gives AtLineEnd (FieldText.listBytes fields) (FieldText.meanings? fields) := by
  induction fields with
  | nil => exact gives_fieldsToEnd_nil
  | cons field fields ih =>
    exact (gives_field ih (fun _ => endsWord_listBytes fields) field).fieldsToEnd

theorem gives_fieldAndMore (field : FieldText) (fields : List FieldText) :
    fieldAndMore.Gives AtLineEnd (field.bytes ++ FieldText.listBytes fields)
      (FieldText.meanings? (field :: fields)) :=
  gives_field (gives_fieldsToEnd fields) (fun _ => endsWord_listBytes fields) field

end Scan

/-! ### The response -/

/-- The text that a token is. -/
def Token.text? : Token → Option String
  | .atom name => some (asciiText name)
  | .number n => some (Decimal.text n)
  | .nil => some "NIL"
  | .quoted text => some text
  | .literal data => ofUtf8? data
  | _ => none

/-- An extended result, as it is written. -/
structure ResultText where
  keyword : Keyword "ESEARCH"
  /-- The word `TAG` and the tag. -/
  correlator : Option (Keyword "TAG" × Scalar)
  uid : Option (Keyword "UID")
  fields : List FieldText

namespace ResultText

/-- The bytes of the correlator, with a space in front. -/
def correlatorBytes : Option (Keyword "TAG" × Scalar) → Bytes
  | none => []
  | some (keyword, tag) => Ascii.space :: Ascii.openParen ::
      (keyword.bytes ++ ([Ascii.space] ++ (tag.bytes ++ [Ascii.closeParen])))

/-- The bytes of what follows the correlator. -/
def bodyBytes (uid : Option (Keyword "UID")) (fields : List FieldText) : Bytes :=
  match uid with
  | none => FieldText.listBytes fields
  | some keyword => Ascii.space :: (keyword.bytes ++ FieldText.listBytes fields)

/-- The bytes of the result, without the line terminator. -/
def bytes (r : ResultText) : Bytes :=
  Ascii.star :: Ascii.space :: (r.keyword.bytes ++
    (correlatorBytes r.correlator ++ bodyBytes r.uid r.fields))

/-- The tag that the correlator gives, or that there is none. -/
def tag? : Option (Keyword "TAG" × Scalar) → Option (Option Tag)
  | none => some none
  | some (_, tag) => (tag.token?.bind Token.text?).map fun text => some ⟨text⟩

/-- What the fields of a result come to. -/
def data? (uid : Option (Keyword "UID")) (fields : List FieldText) : Option SearchData :=
  FieldText.addTo? { uid := uid.isSome } fields

/-- What the result means, if all of its parts can be read. -/
def meaning? (r : ResultText) : Option Untagged :=
  (tag? r.correlator).bind fun tag => (data? r.uid r.fields).map (.extendedSearch tag)

end ResultText

/-- A word that begins with a letter begins with nothing else. -/
theorem LetterWord.head?_append_ne (w : LetterWord) (rest : Bytes) {b : UInt8} (h : ¬ isLetter b) :
    (w.bytes ++ rest).head? ≠ some b := by
  obtain ⟨c, tail, hbytes⟩ := List.exists_cons_of_ne_nil w.ne_nil
  have hletter : isLetter c := w.isLetter_head c (by simp [hbytes])
  rw [hbytes, List.cons_append, List.head?_cons, ne_eq, Option.some.injEq]
  rintro rfl
  exact h hletter

namespace Scan

theorem gives_string (s : Scalar) :
    string.Gives EndsWord s.bytes (s.token?.bind Token.text?) := by
  refine gives_token_bind (fun t ht => ?_) ?_
  · cases t with
    | literal data =>
      rw [Token.text?]
      dsimp only
      cases ofUtf8? data with
      | none => exact gives_fail _ _
      | some text => exact gives_pure text
    | _ => first | exact gives_pure _ | exact gives_fail _ _
  · rintro t (rfl | rfl) bs <;> exact gives_fail _ bs

theorem gives_expect {b : UInt8} {t : Token} (h : punctuation? b = some t) {P : Bytes → Prop} :
    (expect t).Gives P [b] (some ()) := by
  refine (gives_token_punctuation h).finish ?_
  rw [if_pos rfl]
  exact gives_pure ()

theorem gives_correlator (keyword : Keyword "TAG") (tag : Scalar) {P : Bytes → Prop} :
    correlator.Gives P ([Ascii.openParen] ++ (keyword.bytes ++ ([Ascii.space] ++
      (tag.bytes ++ [Ascii.closeParen]))))
      ((tag.token?.bind Token.text?).map fun text => ⟨text⟩) := by
  obtain ⟨name, hname, hatom⟩ := gives_atom_letterWord keyword.toLetterWord
  refine (gives_expect rfl).before (hatom.then ?_ fun rest _ => endsWord_cons (by decide) _)
  rw [if_pos (hname.trans keyword.isKeyword), Option.map_eq_bind]
  refine gives_expectSpace.before ((gives_string tag).bind (fun text _ => ?_)
    fun rest _ => endsWord_cons (by decide) _)
  exact (gives_expect rfl).finish (gives_pure _)

theorem gives_space_nil : space.Gives AtLineEnd [] (some false) :=
  gives_eat_false fun _ => AtLineEnd.head?_ne_space

theorem gives_unlessLineEnds_nil (next : Scan SearchData) (data : SearchData) :
    (unlessLineEnds next data).Gives AtLineEnd [] (some data) :=
  gives_space_nil.finish ((gives_expectLineEnd "ESEARCH").finish (gives_pure data))

theorem gives_unlessLineEnds_space {P : Bytes → Prop} {next : Scan SearchData} {bs : Bytes}
    {result : Option SearchData} (h : next.Gives P bs result) (data : SearchData) :
    (unlessLineEnds next data).Gives P ([Ascii.space] ++ bs) result :=
  (gives_eat Ascii.space).before h

theorem resultFields_eq (name : Bytes) :
    resultFields name = resultFieldOf name >>= fun field => (field :: ·) <$> fieldsToEnd := by
  show (resultFieldOf name >>= fun field => moreFields >>= fun fields =>
    expectLineEnd "ESEARCH" >>= fun _ => pure (field :: fields)) = _
  simp only [fieldsToEnd, map_eq_pure_bind, bind_assoc, pure_bind]

theorem resultData_eq (data : SearchData) :
    (do resultData data (← atom)) =
      (fun fields => fields.foldl SearchData.addField data) <$> fieldAndMore := by
  simp only [resultData, resultFields_eq, fieldAndMore, resultField, map_eq_pure_bind, bind_assoc,
    pure_bind]

/-- The data of fields behind what comes before them. -/
theorem gives_fields (data : SearchData) (fields : List FieldText) :
    (unlessLineEnds (do resultData data (← atom)) data).Gives AtLineEnd
      (FieldText.listBytes fields) (FieldText.addTo? data fields) := by
  cases fields with
  | nil => exact gives_unlessLineEnds_nil _ data
  | cons field fields =>
    rw [resultData_eq]
    exact gives_unlessLineEnds_space ((gives_fieldAndMore field fields).map _) data

/-- Fields without the word `UID` in front. -/
theorem gives_resultBody_fields (field : FieldText) (fields : List FieldText) :
    resultBody.Gives AtLineEnd (field.bytes ++ FieldText.listBytes fields)
      (FieldText.addTo? {} (field :: fields)) := by
  obtain ⟨name, hname, hatom⟩ := gives_atom_letterWord field.name
  have hne : upperCase name ≠ utf8 "UID" := by
    rw [hname]
    exact field.name_ne_uid
  have hdata := (gives_fieldAndMore field fields).map fun known =>
    known.foldl SearchData.addField {}
  rw [← resultData_eq] at hdata
  refine hdata.congr fun pos rest => ?_
  -- Both begin with the name of the first field.
  have hbytes : field.bytes ++ FieldText.listBytes fields ++ rest = field.name.bytes ++
      (Ascii.space :: (field.valueBytes ++ (FieldText.listBytes fields ++ rest))) := by
    simp [FieldText.bytes]
  have hread := hatom pos
    (Ascii.space :: (field.valueBytes ++ (FieldText.listBytes fields ++ rest)))
    (endsWord_cons (by decide) _)
  rw [resultBody, bind_apply, bind_apply, hbytes, hread]
  dsimp only
  rw [if_neg hne]

/-- The word `UID` and fields. -/
theorem gives_resultBody_uid (keyword : Keyword "UID") (fields : List FieldText) :
    resultBody.Gives AtLineEnd (keyword.bytes ++ FieldText.listBytes fields)
      (FieldText.addTo? { uid := true } fields) := by
  obtain ⟨name, hname, hatom⟩ := gives_atom_letterWord keyword.toLetterWord
  refine hatom.then ?_ fun _ => endsWord_listBytes fields
  rw [if_pos (hname.trans keyword.isKeyword)]
  exact gives_fields _ fields

/-- What follows the correlator is nothing, or a space and something that begins with a letter. -/
theorem bodyBytes_cases (uid : Option (Keyword "UID")) (fields : List FieldText) :
    (ResultText.bodyBytes uid fields = [] ∧ ResultText.data? uid fields = some {}) ∨
    ∃ (w : LetterWord) (more : Bytes),
      ResultText.bodyBytes uid fields = [Ascii.space] ++ (w.bytes ++ more) ∧
      resultBody.Gives AtLineEnd (w.bytes ++ more) (ResultText.data? uid fields) := by
  cases uid with
  | some keyword =>
    exact .inr ⟨keyword.toLetterWord, FieldText.listBytes fields, rfl,
      gives_resultBody_uid keyword fields⟩
  | none =>
    cases fields with
    | nil => exact .inl ⟨rfl, rfl⟩
    | cons field fields =>
      have hfields := gives_resultBody_fields field fields
      rw [FieldText.bytes, List.append_assoc] at hfields
      refine .inr ⟨field.name, _, ?_, hfields⟩
      simp [ResultText.bodyBytes, FieldText.listBytes, FieldText.bytes]

theorem gives_body (uid : Option (Keyword "UID")) (fields : List FieldText) :
    (unlessLineEnds resultBody {}).Gives AtLineEnd (ResultText.bodyBytes uid fields)
      (ResultText.data? uid fields) := by
  rcases bodyBytes_cases uid fields with ⟨hbytes, hdata⟩ | ⟨w, more, hbytes, hbody⟩
  · rw [hbytes, hdata]
    exact gives_unlessLineEnds_nil resultBody {}
  · rw [hbytes]
    exact gives_unlessLineEnds_space hbody {}

theorem gives_extendedSearch (tag : Option (Keyword "TAG" × Scalar))
    (uid : Option (Keyword "UID")) (fields : List FieldText) :
    extendedSearch.Gives AtLineEnd
      (ResultText.correlatorBytes tag ++ ResultText.bodyBytes uid fields)
      ((ResultText.tag? tag).bind fun tag =>
        (ResultText.data? uid fields).map (.extendedSearch tag)) := by
  cases tag with
  | some named =>
    obtain ⟨keyword, tag⟩ := named
    have hresult := (gives_correlator keyword tag (P := fun _ => True)).bind
      (fun tag _ => (gives_body uid fields).map (Untagged.extendedSearch (some tag)))
      fun _ _ => trivial
    have htag : ResultText.tag? (some (keyword, tag)) =
        ((tag.token?.bind Token.text?).map fun text => (⟨text⟩ : Tag)).map some := by
      rw [Option.map_map]
      rfl
    rw [htag, Option.bind_map]
    exact (gives_eat Ascii.space).before (hresult.congr fun _ _ => rfl)
  | none =>
    rcases bodyBytes_cases uid fields with ⟨hbytes, hdata⟩ | ⟨w, more, hbytes, hbody⟩
    · rw [hbytes, hdata]
      exact gives_space_nil.finish ((gives_expectLineEnd "ESEARCH").finish (gives_pure _))
    · rw [hbytes]
      refine (gives_eat Ascii.space).before ((hbody.map (Untagged.extendedSearch none)).congr ?_)
      intro pos rest
      have hpeek : (w.bytes ++ more ++ rest).head? ≠ some Ascii.openParen := by
        rw [List.append_assoc]
        exact w.head?_append_ne _ (by decide)
      rw [if_pos rfl, bind_apply]
      show (if (w.bytes ++ more ++ rest).head? = some Ascii.openParen then _
        else _ : Scan Untagged) _ = _
      rw [if_neg hpeek]

theorem untaggedBody_eSearch : untaggedBody (utf8 "ESEARCH") = extendedSearch := by
  have hstatus : Status.ofWord? (utf8 "ESEARCH") = none := by decide +kernel
  have hcapability : utf8 "ESEARCH" ≠ utf8 "CAPABILITY" := by decide +kernel
  have hsearch : utf8 "ESEARCH" ≠ utf8 "SEARCH" := by decide +kernel
  rw [untaggedBody, hstatus]
  dsimp only
  rw [if_neg hcapability, if_neg hsearch, if_pos rfl]

theorem endsWord_resultBytes (tag : Option (Keyword "TAG" × Scalar)) (uid : Option (Keyword "UID"))
    (fields : List FieldText) {rest : Bytes} (h : AtLineEnd rest) :
    EndsWord (ResultText.correlatorBytes tag ++ ResultText.bodyBytes uid fields ++ rest) := by
  have hspace : ¬ isAtomByte Ascii.space := by decide
  cases tag with
  | some named => exact endsWord_cons hspace _
  | none =>
    cases uid with
    | some keyword => exact endsWord_cons hspace _
    | none => exact endsWord_listBytes fields h

theorem gives_response_result (r : ResultText) :
    response.Gives AtLineEnd r.bytes (r.meaning?.map .untagged) := by
  have hnil : upperCase r.keyword.bytes ≠ utf8 "NIL" := by
    rw [r.keyword.isKeyword]
    decide +kernel
  have hstar : punctuation? Ascii.star = some .untagged := rfl
  have hbody : (untaggedBody (upperCase r.keyword.bytes)).Gives AtLineEnd
      (ResultText.correlatorBytes r.correlator ++ ResultText.bodyBytes r.uid r.fields)
      r.meaning? := by
    rw [r.keyword.isKeyword, untaggedBody_eSearch]
    exact gives_extendedSearch r.correlator r.uid r.fields
  have huntagged : untagged.Gives AtLineEnd ([Ascii.space] ++ (r.keyword.bytes ++
      (ResultText.correlatorBytes r.correlator ++ ResultText.bodyBytes r.uid r.fields)))
      r.meaning? :=
    gives_expectSpace.before ((gives_letterWord hnil).then hbody fun _ =>
      endsWord_resultBytes r.correlator r.uid r.fields)
  exact (gives_token_punctuation hstar).before (huntagged.map Response.untagged)

end Scan

namespace ResultText

/-- The parser makes of an extended result what it means. -/
theorem toOption_parse (r : ResultText) :
    (Response.parse (r.bytes ++ crlf)).toOption = r.meaning?.map .untagged := by
  have hresponse := Scan.gives_response_result r
  have hend : Scan.AtLineEnd crlf := .inr rfl
  rw [Response.parse, Cursor.start]
  cases hmeaning : r.meaning?.map Response.untagged with
  | none =>
    rw [hmeaning] at hresponse
    obtain ⟨e, d, herror⟩ := hresponse 0 crlf hend
    rw [herror]
    rfl
  | some response =>
    rw [hmeaning] at hresponse
    rw [hresponse 0 crlf hend]
    rfl

theorem parse_eq_ok {r : ResultText} {data : Untagged} (h : r.meaning? = some data) :
    Response.parse (r.bytes ++ crlf) = .ok (.untagged data) := by
  have hparse := r.toOption_parse
  rw [h] at hparse
  cases hresult : Response.parse (r.bytes ++ crlf) with
  | error e =>
    rw [hresult] at hparse
    cases hparse
  | ok response =>
    rw [hresult] at hparse
    exact congrArg Except.ok (Option.some.inj hparse)

end ResultText

/-! ### Fields of extensions -/

namespace FieldText

theorem addTo?_cons (data : SearchData) (field : FieldText) (fields : List FieldText) :
    addTo? data (field :: fields) =
      field.meaning?.bind fun a => addTo? (data.addField a) fields := by
  rw [addTo?, meanings?]
  cases field.meaning? with
  | none => rfl
  | some a =>
    show ((meanings? fields).map (a :: ·)).map _ = _
    rw [Option.map_map]
    rfl

/-- Fields of extensions that are read over add nothing. -/
theorem addTo?_of_isSkipped {fields : List FieldText} (h : ∀ field ∈ fields, field.isSkipped)
    (data : SearchData) : addTo? data fields = addTo? data (fields.filter (·.isKnown)) := by
  induction fields generalizing data with
  | nil => rfl
  | cons field fields ih =>
    obtain ⟨hfield, hfields⟩ := List.forall_mem_cons.mp h
    cases field with
    | known name hname value =>
      rw [List.filter_cons_of_pos rfl, addTo?_cons, addTo?_cons]
      exact Option.bind_congr fun a _ => ih hfields (data.addField a)
    | extension name hname value =>
      have hmeaning : meaning? (.extension name hname value) = some .unknown := if_pos hfield
      rw [List.filter_cons_of_neg (by simp [isKnown]), addTo?_cons, hmeaning]
      exact ih hfields data

/-- One field that is not read over hides all of them. -/
theorem addTo?_of_not_isSkipped {fields : List FieldText}
    (h : ∃ field ∈ fields, ¬ field.isSkipped) (data : SearchData) : addTo? data fields = none := by
  induction fields generalizing data with
  | nil =>
    obtain ⟨field, hmem, -⟩ := h
    cases hmem
  | cons other fields ih =>
    rw [addTo?_cons]
    obtain ⟨field, hmem, hfield⟩ := h
    rcases List.mem_cons.mp hmem with rfl | hmem
    · cases field with
      | known name hname value => exact absurd rfl hfield
      | extension name hname value =>
        have hmeaning : meaning? (.extension name hname value) = none := if_neg hfield
        rw [hmeaning]
        rfl
    · have hnone := ih ⟨field, hmem, hfield⟩
      simp [hnone]

end FieldText

namespace ResultText

/-- The result without the fields of extensions. -/
def known (r : ResultText) : ResultText := { r with fields := r.fields.filter (·.isKnown) }

theorem meaning?_of_isSkipped {r : ResultText} (h : ∀ field ∈ r.fields, field.isSkipped) :
    r.meaning? = r.known.meaning? := by
  rw [meaning?, meaning?, data?, FieldText.addTo?_of_isSkipped h]
  rfl

theorem meaning?_of_not_isSkipped {r : ResultText} (h : ∃ field ∈ r.fields, ¬ field.isSkipped) :
    r.meaning? = none := by
  rw [meaning?, data?, FieldText.addTo?_of_not_isSkipped h]
  cases tag? r.correlator <;> rfl

/-- Fields of extensions, at any places of an extended result that parses without them, leave its
tag and its data as they are if, and only if, the values of all of them are read over. One value
that is not read over makes an error of the whole result. -/
theorem parse_with_extensions (r : ResultText) {response : Response}
    (h : Response.parse (r.known.bytes ++ crlf) = .ok response) :
    (Response.parse (r.bytes ++ crlf) = .ok response ↔ ∀ field ∈ r.fields, field.isSkipped) ∧
    ((∃ field ∈ r.fields, ¬ field.isSkipped) →
      ∃ e, Response.parse (r.bytes ++ crlf) = .error e) := by
  have hparse := r.toOption_parse
  have herror : (∃ field ∈ r.fields, ¬ field.isSkipped) →
      ∃ e, Response.parse (r.bytes ++ crlf) = .error e := by
    intro hnot
    rw [meaning?_of_not_isSkipped hnot] at hparse
    cases hresult : Response.parse (r.bytes ++ crlf) with
    | error e => exact ⟨e, rfl⟩
    | ok other =>
      rw [hresult] at hparse
      cases hparse
  refine ⟨⟨fun hok => ?_, fun hskipped => ?_⟩, herror⟩
  · by_contra hnot
    obtain ⟨e, he⟩ := herror (by simpa using hnot)
    rw [hok] at he
    cases he
  · have hknown := r.known.toOption_parse
    rw [h, ← meaning?_of_isSkipped hskipped, ← hparse] at hknown
    cases hresult : Response.parse (r.bytes ++ crlf) with
    | error e =>
      rw [hresult] at hknown
      cases hknown
    | ok other =>
      rw [hresult] at hknown
      cases hknown
      rfl

/-- The result of the search `A1`, which found two messages, with the field `MODSEQ` of an
extension. -/
def withModSeq (n : Nat) : ResultText where
  keyword := {
    bytes := utf8 "ESEARCH"
    ne_nil := by decide +kernel
    isAtom := by decide +kernel
    isLetter_head := by decide +kernel
    isKeyword := by decide +kernel }
  correlator := some ({
    bytes := utf8 "TAG"
    ne_nil := by decide +kernel
    isAtom := by decide +kernel
    isLetter_head := by decide +kernel
    isKeyword := by decide +kernel }, .quoted ⟨"A1", by decide +kernel⟩)
  uid := none
  fields := [
    .extension {
      bytes := utf8 "MODSEQ"
      ne_nil := by decide +kernel
      isAtom := by decide +kernel
      isLetter_head := by decide +kernel } (by decide +kernel) (.number n),
    .known {
      bytes := utf8 "COUNT"
      ne_nil := by decide +kernel
      isAtom := by decide +kernel
      isLetter_head := by decide +kernel } (by decide +kernel)
      ⟨utf8 "2", by decide +kernel, by decide +kernel⟩]

/-- A number below the bound is read over, and the bound itself makes an error of the result. -/
theorem parse_with_extensions_modSeq :
    Response.parse (utf8 "* ESEARCH (TAG \"A1\") MODSEQ 917162500 COUNT 2\r\n") =
      .ok (.untagged (.extendedSearch (some ⟨"A1"⟩) { count := some 2 })) ∧
    ∃ e, Response.parse (utf8 "* ESEARCH (TAG \"A1\") MODSEQ 4294967296 COUNT 2\r\n") =
      .error e := by
  have hsmall : (withModSeq 917162500).bytes ++ crlf =
      utf8 "* ESEARCH (TAG \"A1\") MODSEQ 917162500 COUNT 2\r\n" := by decide +kernel
  have hlarge : (withModSeq 4294967296).bytes ++ crlf =
      utf8 "* ESEARCH (TAG \"A1\") MODSEQ 4294967296 COUNT 2\r\n" := by decide +kernel
  have hknown : ∀ n, Response.parse ((withModSeq n).known.bytes ++ crlf) =
      .ok (.untagged (.extendedSearch (some ⟨"A1"⟩) { count := some 2 })) := by
    intro n
    have hbytes : (withModSeq n).known.bytes ++ crlf =
        utf8 "* ESEARCH (TAG \"A1\") COUNT 2\r\n" := by
      show (withModSeq 0).known.bytes ++ crlf = _
      decide +kernel
    rw [hbytes]
    decide +kernel
  have hskipped : ∀ n, (∀ field ∈ (withModSeq n).fields, field.isSkipped) ↔ n < numberBound := by
    intro n
    rw [← ExtensionValue.isSkipped_number]
    simp [withModSeq, FieldText.isSkipped]
  constructor
  · rw [← hsmall]
    exact (parse_with_extensions _ (hknown _)).1.mpr ((hskipped _).mpr (by decide))
  · rw [← hlarge]
    refine (parse_with_extensions _ (hknown _)).2 ?_
    have hnot := mt (hskipped 4294967296).mp (by decide)
    simpa using hnot

end ResultText

end ImapSearch
