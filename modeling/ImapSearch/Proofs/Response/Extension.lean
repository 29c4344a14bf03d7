import ImapSearch.Proofs.Scan.Reads

/-!
# ImapSearch.Proofs.Response.Extension

**Values that nobody reads.** An extension may put a value of any kind into a
response: a number, a sequence set, an atom, a string, or a list of such values
(`ExtensionValue`). The scan that reads over it knows nothing of that grammar and
goes by tokens, so it does not get over every value:

* A run of digits is a number of 32 bits, and a larger one is an error everywhere.
* A plus sign in front of a word is an error everywhere, a bracket outside of lists.
* The asterisk of a sequence set is an error outside of lists, or it ends the value.

`ExtensionValue.isSkipped` says which values are read over, and
`ExtensionValue.isSkippedInside` says it for values inside of a list. Both are exact
(`Scan.gives_discardValue`, `Scan.passes_value`).
-/

namespace ImapSearch

/-! ### Sequence sets -/

/-- A run of digits. -/
structure Digits where
  bytes : Bytes
  ne_nil : bytes ≠ []
  isDigit : ∀ b ∈ bytes, Ascii.isDigit b

/-- A number of a sequence set, or the asterisk for the largest one. -/
inductive SetBound
  | number (digits : Digits)
  | star

/-- What stands between two numbers of a sequence set. -/
inductive SetMark
  | colon
  | comma

/-- A sequence set, as it is written. -/
structure SetText where
  first : SetBound
  others : List (SetMark × SetBound)

namespace SetText

def boundBytes : SetBound → Bytes
  | .number digits => digits.bytes
  | .star => [Ascii.star]

def markByte : SetMark → UInt8
  | .colon => Ascii.colon
  | .comma => Ascii.comma

def othersBytes (others : List (SetMark × SetBound)) : Bytes :=
  others.flatMap fun (mark, bound) => markByte mark :: boundBytes bound

/-- The bytes of a sequence set. -/
def bytes (set : SetText) : Bytes := boundBytes set.first ++ othersBytes set.others

end SetText

/-! ### Values -/

/-- A value of an extension. -/
inductive ExtensionValue
  | scalar (s : Scalar)
  | set (s : SetText)
  | list (values : List ExtensionValue)

/-- Whether a word is read over inside of a list. Brackets in front of it do not matter there. -/
def wordIsSkippedInside (bs : Bytes) : Bool :=
  let inner := bs.dropWhile (· = Ascii.openBracket)
  inner.isEmpty || (wordToken? inner).isSome

/-- Whether a scalar is read over inside of a list. -/
def Scalar.isSkippedInside : Scalar → Bool
  | .word w => wordIsSkippedInside w.bytes
  | .quoted _ | .literal _ => true

namespace ExtensionValue

mutual

/-- The bytes of a value. -/
def bytes : ExtensionValue → Bytes
  | .scalar s => s.bytes
  | .set s => s.bytes
  | .list values => Ascii.openParen :: (listBytes values ++ [Ascii.closeParen])

/-- The bytes of the values of a list. -/
def listBytes : List ExtensionValue → Bytes
  | [] => []
  | [value] => value.bytes
  | value :: next :: others => value.bytes ++ Ascii.space :: listBytes (next :: others)

end

mutual

/-- Whether the value is read over inside of a list. -/
def isSkippedInside : ExtensionValue → Bool
  | .scalar s => s.isSkippedInside
  | .set s => s.bytes.contains Ascii.star || (wordToken? s.bytes).isSome
  | .list values => allSkippedInside values

/-- Whether all values of a list are read over. -/
def allSkippedInside : List ExtensionValue → Bool
  | [] => true
  | value :: others => value.isSkippedInside && allSkippedInside others

end

/-- Whether the value is read over outside of any list. -/
def isSkipped : ExtensionValue → Bool
  | .scalar s => s.token?.isSome
  | .set s => !s.bytes.contains Ascii.star && (wordToken? s.bytes).isSome
  | .list values => allSkippedInside values

/-- A number, such as the value of `MODSEQ`. -/
def number (n : Nat) : ExtensionValue :=
  .scalar (.word ⟨Decimal.encode n, Decimal.encode_ne_nil n,
    fun _ hb => isAtomByte_of_isDigit (Decimal.isDigit_of_mem_encode hb)⟩)

/-- A number is read over if it is below the bound that holds for every number of a response. -/
theorem isSkipped_number (n : Nat) : (number n).isSkipped ↔ n < numberBound := by
  show (wordToken? (Decimal.encode n)).isSome ↔ n < numberBound
  rw [wordToken?_of_isDigit fun _ => Decimal.isDigit_of_mem_encode, Option.isSome_map,
    Decimal.decodeBelow?_eq_filter, Decimal.decode?_encode]
  simp

end ExtensionValue

namespace Scan

/-! ### Inside of lists -/

theorem discardNested_eq_bind (depth : Nat) :
    (discardNested depth : Scan Unit) = token >>= fun t =>
      match nesting? depth t with
      | none => fail (.expectedValue t)
      | some 0 => pure ()
      | some (n + 1) => discardNested (n + 1) := by
  funext c
  rw [discardNested, bind_apply]
  split
  next ht => rw [ht]
  next t d ht =>
    rw [ht]
    dsimp only
    split
    next hn => rw [hn]
    next hn => rw [hn]; rfl
    next hn => rw [hn]

/-- Inside of a list the bytes are read over, or reading fails on them; however deep the list, and
whatever reading comes to behind them. -/
def Passes (bs : Bytes) (passed : Bool) : Prop :=
  ∀ (depth : Nat) {P : Bytes → Prop} {cs : Bytes} {result : Option Unit},
    Gives (discardNested (depth + 1)) P cs result → (∀ rest, P rest → EndsWord (cs ++ rest)) →
    Gives (discardNested (depth + 1)) P (bs ++ cs) (if passed then result else none)

theorem passes_nil : Passes [] true := fun _ _ _ _ h _ => h

theorem Passes.append {bs cs : Bytes} {passed passed' : Bool} (h : Passes bs passed)
    (h' : Passes cs passed') (hcs : ∀ rest, EndsWord (cs ++ rest)) :
    Passes (bs ++ cs) (passed && passed') := by
  intro depth P ds result hds hP
  have hstop : ∀ rest, P rest → EndsWord (cs ++ ds ++ rest) := by
    intro rest _
    rw [List.append_assoc]
    exact hcs _
  have hboth := h depth (h' depth hds hP) hstop
  rw [List.append_assoc]
  cases passed
  · exact hboth
  · exact hboth

theorem nesting?_of_isScalar {t : Token} (h : t.isScalar) (depth : Nat) :
    nesting? depth t = some depth := by
  cases t <;> first | rfl | cases h

theorem passes_scalar {bs : Bytes} {t : Token} (h : token.Gives EndsWord bs (some t))
    (ht : t.isScalar) : Passes bs true := by
  intro depth P cs result hcs hP
  rw [discardNested_eq_bind]
  refine h.then ?_ hP
  rw [nesting?_of_isScalar ht]
  exact hcs

theorem passes_of_fails {bs : Bytes} (h : token.Gives EndsWord bs none) : Passes bs false := by
  intro depth P cs result _ hP
  rw [discardNested_eq_bind]
  exact h.bind_none hP

/-- Punctuation that may stand in a list. -/
theorem Passes.cons {b : UInt8} {t : Token} {bs : Bytes} {passed : Bool}
    (h : Passes bs passed) (hb : punctuation? b = some t)
    (ht : ∀ depth, nesting? (depth + 1) t = some (depth + 1)) : Passes (b :: bs) passed := by
  intro depth P cs result hcs hP
  have hsplit : b :: bs ++ cs = [b] ++ (bs ++ cs) := rfl
  rw [discardNested_eq_bind, hsplit]
  refine (gives_token_punctuation hb).before ?_
  rw [ht]
  exact h depth hcs hP

theorem passes_plus (bs : Bytes) : Passes (Ascii.plus :: bs) false := by
  intro depth P cs result _ _
  rw [discardNested_eq_bind]
  have hplus : punctuation? Ascii.plus = some .continuation := rfl
  exact (gives_token_punctuation hplus).before (gives_fail _ (bs ++ cs))

/-! ### Words inside of lists -/

theorem wordIsSkippedInside_eq {bs : Bytes} (hne : bs ≠ [])
    (h : bs.head? ≠ some Ascii.openBracket) :
    wordIsSkippedInside bs = (wordToken? bs).isSome := by
  cases bs with
  | nil => exact absurd rfl hne
  | cons b bs =>
    have hb : ¬ b = Ascii.openBracket := by simpa using h
    simp [wordIsSkippedInside, hb]

theorem passes_word {bs : Bytes} (h : ∀ b ∈ bs, isAtomByte b) :
    Passes bs (wordIsSkippedInside bs) := by
  induction bs with
  | nil => exact passes_nil
  | cons b bs ih =>
    obtain ⟨hb, hbs⟩ := List.forall_mem_cons.mp h
    by_cases hbracket : b = Ascii.openBracket
    · -- The bracket is a token by itself, and may stand in a list.
      subst hbracket
      exact (ih hbs).cons rfl fun _ => rfl
    · rw [wordIsSkippedInside_eq (List.cons_ne_nil _ _) (by simpa using hbracket)]
      by_cases hplus : b = Ascii.plus
      · subst hplus
        exact passes_plus bs
      · have hword := gives_word (w := ⟨b :: bs, List.cons_ne_nil _ _, h⟩)
          (by simp [opensWithPunctuation, hbracket, hplus])
        cases ht : wordToken? (b :: bs) with
        | none =>
          rw [ht] at hword
          exact passes_of_fails hword
        | some t =>
          rw [ht] at hword
          exact passes_scalar hword (isScalar_of_wordToken? ht)

theorem passes_scalarValue (s : Scalar) : Passes s.bytes s.isSkippedInside := by
  cases s with
  | word w => exact passes_word w.isAtom
  | quoted q => exact passes_scalar (gives_quoted q) rfl
  | literal l => exact passes_scalar (gives_literal l) rfl

/-! ### Sequence sets inside of lists -/

/-- Whether the byte can stand in a sequence set, and is part of a word there. -/
def isSetByte (b : UInt8) : Bool := Ascii.isDigit b || b = Ascii.colon || b = Ascii.comma

theorem isAtomByte_of_isSetByte {b : UInt8} (h : isSetByte b) : isAtomByte b := by
  simp only [isSetByte, Bool.or_eq_true, decide_eq_true_eq] at h
  rcases h with (h | rfl) | rfl
  · exact isAtomByte_of_isDigit h
  · decide
  · decide

theorem isSetByte_markByte (mark : SetMark) : isSetByte (SetText.markByte mark) := by
  cases mark <;> decide

theorem not_opensWithPunctuation {bs : Bytes} (h : ∀ b ∈ bs, isSetByte b) :
    ¬ opensWithPunctuation bs := by
  simp only [opensWithPunctuation, Bool.or_eq_true, decide_eq_true_eq]
  rintro (hb | hb) <;> exact absurd (h _ (List.mem_of_mem_head? hb)) (by decide)

theorem upperCase_ne_nil {bs : Bytes} (h : ∀ b ∈ bs, isSetByte b) : upperCase bs ≠ utf8 "NIL" := by
  intro hnil
  have hhead : (upperCase bs).head? = some 0x4E := by
    rw [hnil]
    decide +kernel
  rw [upperCase, List.head?_map] at hhead
  obtain ⟨b, hb, hupper⟩ := Option.map_eq_some_iff.mp hhead
  have hbyte := h b (List.mem_of_mem_head? hb)
  simp only [isSetByte, Ascii.isDigit, Bool.or_eq_true, Bool.and_eq_true,
    decide_eq_true_eq] at hbyte
  unfold Ascii.upper at hupper
  grind

/-- A part of a sequence set that holds more than digits is an atom. -/
theorem wordToken?_eq_atom {bs : Bytes} (h : ∀ b ∈ bs, isSetByte b)
    (hmark : ∃ b ∈ bs, ¬ Ascii.isDigit b) : wordToken? bs = some (.atom bs) := by
  have hdigits : ¬ bs.all Ascii.isDigit := by simpa using hmark
  rw [wordToken?, if_neg (not_opensWithPunctuation h), if_neg hdigits, if_neg (upperCase_ne_nil h)]

theorem passes_setPart {bs : Bytes} (h : ∀ b ∈ bs, isSetByte b) (hne : bs ≠ []) :
    Passes bs (wordToken? bs).isSome := by
  have hhead : bs.head? ≠ some Ascii.openBracket := by
    intro hb
    exact absurd (h _ (List.mem_of_mem_head? hb)) (by decide)
  rw [← wordIsSkippedInside_eq hne hhead]
  exact passes_word fun b hb => isAtomByte_of_isSetByte (h b hb)

/-- The rest of a sequence set behind `part`, which was not yet read. Its words hold more than
digits, as there is a mark on either side of an asterisk. -/
theorem passes_othersBytes (others : List (SetMark × SetBound)) {part : Bytes}
    (h : ∀ b ∈ part, isSetByte b)
    (hmark : part = [] ∨ (∃ b ∈ part, ¬ Ascii.isDigit b) ∨ others ≠ []) :
    Passes (part ++ SetText.othersBytes others) true := by
  induction others generalizing part with
  | nil =>
    rw [SetText.othersBytes, List.flatMap_nil, List.append_nil]
    rcases hmark with rfl | hmark | hne
    · exact passes_nil
    · have hpart := passes_setPart h (by rintro rfl; simp at hmark)
      rw [wordToken?_eq_atom h hmark] at hpart
      exact hpart
    · exact absurd rfl hne
  | cons other others ih =>
    obtain ⟨mark, bound⟩ := other
    have hbyte := isSetByte_markByte mark
    have hdigit : ¬ Ascii.isDigit (SetText.markByte mark) := by cases mark <;> decide
    have hothers : SetText.othersBytes ((mark, bound) :: others) =
        SetText.markByte mark :: (SetText.boundBytes bound ++ SetText.othersBytes others) := rfl
    rw [hothers]
    cases bound with
    | number digits =>
      have hmore : ∀ b ∈ part ++ SetText.markByte mark :: digits.bytes, isSetByte b := by
        refine List.forall_mem_append.mpr ⟨h, List.forall_mem_cons.mpr ⟨hbyte, fun b hb => ?_⟩⟩
        simp [isSetByte, digits.isDigit b hb]
      have hpassed := ih hmore (.inr (.inl ⟨_, by simp, hdigit⟩))
      rw [List.append_assoc] at hpassed
      exact hpassed
    | star =>
      have hword : ∀ b ∈ part ++ [SetText.markByte mark], isSetByte b :=
        List.forall_mem_append.mpr ⟨h, by simpa using hbyte⟩
      have hpart := passes_setPart hword (by simp)
      rw [wordToken?_eq_atom hword ⟨_, by simp, hdigit⟩] at hpart
      have hstar : Passes (Ascii.star :: SetText.othersBytes others) true :=
        (ih (by simp) (.inl rfl)).cons rfl fun _ => rfl
      have hpassed := hpart.append hstar fun rest => endsWord_cons (by decide) _
      rw [List.append_assoc] at hpassed
      exact hpassed

end Scan

theorem SetText.bytes_ne_nil (set : SetText) : set.bytes ≠ [] := by
  obtain ⟨first, others⟩ := set
  cases first with
  | number digits => simp [bytes, boundBytes, digits.ne_nil]
  | star => simp [bytes, boundBytes]

/-- Every byte of a sequence set is one of a word, or an asterisk. -/
theorem SetText.isSetByte_of_mem_bytes {set : SetText} {b : UInt8} (h : b ∈ set.bytes) :
    Scan.isSetByte b ∨ b = Ascii.star := by
  have hbound : ∀ bound : SetBound, b ∈ boundBytes bound → Scan.isSetByte b ∨ b = Ascii.star := by
    intro bound hb
    cases bound with
    | number digits =>
      left
      simp [Scan.isSetByte, digits.isDigit b hb]
    | star => exact .inr (List.mem_singleton.mp hb)
  rcases List.mem_append.mp h with hb | hb
  · exact hbound _ hb
  · obtain ⟨⟨mark, bound⟩, -, hb⟩ := List.mem_flatMap.mp hb
    rcases List.mem_cons.mp hb with rfl | hb
    · exact .inl (Scan.isSetByte_markByte mark)
    · exact hbound _ hb

/-- A sequence set without an asterisk is a word. -/
def SetText.asWord (set : SetText) (h : Ascii.star ∉ set.bytes) : Word where
  bytes := set.bytes
  ne_nil := set.bytes_ne_nil
  isAtom := by
    intro b hb
    rcases isSetByte_of_mem_bytes hb with hbyte | rfl
    · exact Scan.isAtomByte_of_isSetByte hbyte
    · exact absurd hb h

namespace Scan

theorem passes_set (set : SetText) :
    Passes set.bytes (set.bytes.contains Ascii.star || (wordToken? set.bytes).isSome) := by
  by_cases hstar : Ascii.star ∈ set.bytes
  · rw [List.contains_iff_mem.mpr hstar, Bool.true_or]
    obtain ⟨first, others⟩ := set
    cases first with
    | star =>
      have hothers : Passes ([] ++ SetText.othersBytes others) true :=
        passes_othersBytes others (by simp) (.inl rfl)
      exact hothers.cons rfl fun _ => rfl
    | number digits =>
      have hdigits : ∀ b ∈ digits.bytes, isSetByte b := by
        intro b hb
        simp [isSetByte, digits.isDigit b hb]
      refine passes_othersBytes others hdigits (.inr (.inr ?_))
      rintro rfl
      have hmem : Ascii.star ∈ digits.bytes := by
        simpa [SetText.bytes, SetText.boundBytes, SetText.othersBytes] using hstar
      exact absurd (hdigits _ hmem) (by decide)
  · have hword : ∀ b ∈ set.bytes, isSetByte b := by
      intro b hb
      rcases SetText.isSetByte_of_mem_bytes hb with h | rfl
      · exact h
      · exact absurd hb hstar
    have hcontains : set.bytes.contains Ascii.star = false := by simpa using hstar
    rw [hcontains, Bool.false_or]
    exact passes_setPart hword set.bytes_ne_nil

/-! ### Lists inside of lists -/

/-- A list is read over, or not, as its values are. -/
theorem passes_list {inner : Bytes} {passed : Bool} (h : Passes inner passed) :
    Passes (Ascii.openParen :: (inner ++ [Ascii.closeParen])) passed := by
  intro depth P cs result hcs hP
  have hclose : Gives (discardNested (depth + 2)) P ([Ascii.closeParen] ++ cs) result := by
    have hparen : punctuation? Ascii.closeParen = some .listEnd := rfl
    rw [discardNested_eq_bind]
    exact (gives_token_punctuation hparen).before hcs
  have hinner := h (depth + 1) hclose fun rest _ => endsWord_cons (by decide) _
  have hopen : punctuation? Ascii.openParen = some .listStart := rfl
  have hsplit : Ascii.openParen :: (inner ++ [Ascii.closeParen]) ++ cs =
      [Ascii.openParen] ++ (inner ++ ([Ascii.closeParen] ++ cs)) := by
    simp
  rw [hsplit, discardNested_eq_bind]
  exact (gives_token_punctuation hopen).before hinner

mutual

theorem passes_value : ∀ value : ExtensionValue, Passes value.bytes value.isSkippedInside
  | .scalar s => by
    rw [ExtensionValue.bytes, ExtensionValue.isSkippedInside]
    exact passes_scalarValue s
  | .set s => by
    rw [ExtensionValue.bytes, ExtensionValue.isSkippedInside]
    exact passes_set s
  | .list values => by
    rw [ExtensionValue.bytes, ExtensionValue.isSkippedInside]
    exact passes_list (passes_values values)

theorem passes_values : ∀ values : List ExtensionValue,
    Passes (ExtensionValue.listBytes values) (ExtensionValue.allSkippedInside values)
  | [] => passes_nil
  | [value] => by
    rw [ExtensionValue.listBytes, ExtensionValue.allSkippedInside, ExtensionValue.allSkippedInside,
      Bool.and_true]
    exact passes_value value
  | value :: next :: others => by
    have hothers := (passes_values (next :: others)).cons (b := Ascii.space) rfl fun _ => rfl
    rw [ExtensionValue.listBytes, ExtensionValue.allSkippedInside]
    exact (passes_value value).append hothers fun rest => endsWord_cons (by decide) _

end

/-! ### Outside of lists -/

theorem gives_discardValue_list {inner : Bytes} {passed : Bool} (h : Passes inner passed)
    {P : Bytes → Prop} : discardValue.Gives P (Ascii.openParen :: (inner ++ [Ascii.closeParen]))
      (if passed then some () else none) := by
  have hclose : Gives (discardNested 1) P [Ascii.closeParen] (some ()) := by
    have hparen : punctuation? Ascii.closeParen = some .listEnd := rfl
    rw [discardNested_eq_bind]
    exact (gives_token_punctuation hparen).finish (gives_pure ())
  have hinner := h 0 hclose fun rest _ => endsWord_cons (by decide) _
  have hopen : punctuation? Ascii.openParen = some .listStart := rfl
  rw [discardValue, discardNested_eq_bind]
  exact (gives_token_punctuation hopen).before hinner

theorem gives_discardValue_scalar (s : Scalar) :
    discardValue.Gives EndsWord s.bytes (s.token?.map fun _ => ()) := by
  rw [Option.map_eq_bind, discardValue, discardNested_eq_bind]
  refine gives_token_bind (fun t ht => ?_) ?_
  · rw [nesting?_of_isScalar (Scalar.isScalar_of_token? ht)]
    exact gives_pure ()
  · rintro t (rfl | rfl) bs
    · exact gives_fail _ bs
    · exact gives_fail _ bs

theorem gives_discardValue_word {w : Word} :
    discardValue.Gives EndsWord w.bytes ((wordToken? w.bytes).map fun _ => ()) :=
  gives_discardValue_scalar (.word w)

/-- A value is read over where it is. -/
theorem gives_discardValue {value : ExtensionValue} (h : value.isSkipped) :
    discardValue.Gives EndsWord value.bytes (some ()) := by
  cases value with
  | scalar s =>
    obtain ⟨t, ht⟩ := Option.isSome_iff_exists.mp h
    have hscalar := gives_discardValue_scalar s
    rw [ht] at hscalar
    rw [ExtensionValue.bytes]
    exact hscalar
  | set s =>
    rw [ExtensionValue.isSkipped, Bool.and_eq_true, Bool.not_eq_true'] at h
    obtain ⟨hstar, htoken⟩ := h
    obtain ⟨t, ht⟩ := Option.isSome_iff_exists.mp htoken
    have hword := gives_discardValue_word (w := s.asWord (by simpa using hstar))
    rw [SetText.asWord, ht] at hword
    rw [ExtensionValue.bytes]
    exact hword
  | list values =>
    rw [ExtensionValue.isSkipped] at h
    have hlist := gives_discardValue_list (passes_values values) (P := EndsWord)
    rw [if_pos h] at hlist
    rw [ExtensionValue.bytes]
    exact hlist

/-- On any other value reading fails, or it stops in front of an asterisk. -/
theorem not_gives_discardValue {value : ExtensionValue} (h : ¬ value.isSkipped) :
    discardValue.Gives EndsWord value.bytes none ∨
    ∃ front back, value.bytes = front ++ Ascii.star :: back ∧
      discardValue.Gives EndsWord front (some ()) := by
  cases value with
  | scalar s =>
    left
    have hscalar := gives_discardValue_scalar s
    rw [Option.not_isSome_iff_eq_none.mp h] at hscalar
    rw [ExtensionValue.bytes]
    exact hscalar
  | list values =>
    left
    rw [ExtensionValue.isSkipped] at h
    have hlist := gives_discardValue_list (passes_values values) (P := EndsWord)
    rw [if_neg h] at hlist
    rw [ExtensionValue.bytes]
    exact hlist
  | set s =>
    rw [ExtensionValue.isSkipped, Bool.and_eq_true, Bool.not_eq_true', not_and] at h
    rw [ExtensionValue.bytes]
    by_cases hstar : Ascii.star ∈ s.bytes
    · obtain ⟨front, back, hbytes, hfront⟩ := List.eq_append_cons_of_mem hstar
      have hatom : ∀ b ∈ front, isAtomByte b := by
        intro b hb
        have hmem : b ∈ s.bytes := by
          rw [hbytes]
          exact List.mem_append_left _ hb
        rcases SetText.isSetByte_of_mem_bytes hmem with h | rfl
        · exact isAtomByte_of_isSetByte h
        · exact absurd hb hfront
      rw [hbytes]
      by_cases hne : front = []
      · subst hne
        left
        have hpunctuation : punctuation? Ascii.star = some .untagged := rfl
        rw [discardValue, discardNested_eq_bind]
        exact (gives_token_punctuation hpunctuation).before (gives_fail _ back)
      · have hword := gives_discardValue_word (w := ⟨front, hne, hatom⟩)
        cases ht : wordToken? front with
        | none =>
          left
          rw [ht] at hword
          exact hword.append_none fun rest _ => endsWord_cons (by decide) _
        | some t =>
          rw [ht] at hword
          exact .inr ⟨front, back, rfl, hword⟩
    · left
      have hcontains : s.bytes.contains Ascii.star = false := by simpa using hstar
      have hword := gives_discardValue_word (w := s.asWord hstar)
      rw [SetText.asWord, Option.not_isSome_iff_eq_none.mp (h hcontains)] at hword
      exact hword

end Scan

end ImapSearch
