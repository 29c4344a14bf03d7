import ImapSearch.Command
import ImapSearch.Proofs.Decimal
import ImapSearch.Proofs.SearchKey
import ImapSearch.Proofs.SequenceSet.Text

/-!
# ImapSearch.Proofs.Command.Containment

**A command is one command.** A server takes a command apart by reading it byte
by byte: inside of a quoted string and inside of the data of a literal nothing
has a meaning, and outside of them a line terminator ends the command. `Wire.step`
is that reader, which also counts the parentheses that are open.

Bytes are contained (`Wire.isContained`) if the reader comes out of them as it
went in. Every text of a search is written in a form that contains it, be it what
it may, with one exception: the name of a keyword is written as it is. So
commands hold together for exactly those names that are contained themselves.
-/

namespace ImapSearch.Wire

/-! ### The reader -/

/-- Where the reader stands. -/
inductive Place
  | outside
  /-- Behind a brace that may open the header of a literal. -/
  | brace
  /-- Behind the first digits of a size. -/
  | size (n : Nat)
  /-- Behind the plus sign that follows a size. -/
  | plus (n : Nat)
  /-- Behind the brace that closes a header. -/
  | header (n : Nat)
  /-- Inside the line terminator that ends a header. -/
  | headerEnd (n : Nat)
  /-- Inside of a literal, with a number of bytes to come behind the next one. -/
  | literal (n : Nat)
  | quoted
  /-- Behind a backslash in a quoted string. -/
  | escaped
deriving DecidableEq, Repr

/-- Whether the reader is neither in a string nor in the line terminator of a header. -/
def Place.isOuter : Place → Bool
  | .outside | .brace | .size _ | .plus _ | .header _ => true
  | .headerEnd _ | .literal _ | .quoted | .escaped => false

/-- Where the reader stands before so many bytes of a literal. -/
def Place.before : Nat → Place
  | 0 => .outside
  | n + 1 => .literal n

/-- The state of the reader: its place and how many parentheses are open. -/
structure State where
  place : Place := .outside
  depth : Nat := 0
deriving DecidableEq, Repr

/-- The reader takes a byte outside of strings. A line terminator ends the command and is refused,
and so is a parenthesis that closes nothing. -/
def outer (depth : Nat) (b : UInt8) : Option State :=
  if b = Ascii.cr ∨ b = Ascii.lf then none
  else if b = Ascii.openParen then some ⟨.outside, depth + 1⟩
  else if b = Ascii.closeParen then
    match depth with
    | 0 => none
    | depth + 1 => some ⟨.outside, depth⟩
  else if b = Ascii.quote then some ⟨.quoted, depth⟩
  else if b = Ascii.openBrace then some ⟨.brace, depth⟩
  else some ⟨.outside, depth⟩

/-- The reader takes a byte. -/
def step : State → UInt8 → Option State
  | ⟨.outside, depth⟩, b => outer depth b
  | ⟨.brace, depth⟩, b =>
    if Ascii.isDigit b then some ⟨.size (Decimal.withDigit 0 b), depth⟩ else outer depth b
  | ⟨.size n, depth⟩, b =>
    if Ascii.isDigit b then some ⟨.size (Decimal.withDigit n b), depth⟩
    else if b = Ascii.plus then some ⟨.plus n, depth⟩
    else outer depth b
  | ⟨.plus n, depth⟩, b =>
    if b = Ascii.closeBrace then some ⟨.header n, depth⟩ else outer depth b
  | ⟨.header n, depth⟩, b =>
    if b = Ascii.cr then some ⟨.headerEnd n, depth⟩ else outer depth b
  | ⟨.headerEnd n, depth⟩, b => if b = Ascii.lf then some ⟨.before n, depth⟩ else none
  | ⟨.literal n, depth⟩, _ => some ⟨.before n, depth⟩
  | ⟨.quoted, depth⟩, b =>
    if b = Ascii.quote then some ⟨.outside, depth⟩
    else if b = Ascii.backslash then some ⟨.escaped, depth⟩
    else if b = Ascii.cr ∨ b = Ascii.lf then none
    else some ⟨.quoted, depth⟩
  | ⟨.escaped, depth⟩, b =>
    if b = Ascii.quote ∨ b = Ascii.backslash then some ⟨.quoted, depth⟩ else none

/-- The reader takes bytes one by one. -/
def scan (s : State) (bs : Bytes) : Option State := bs.foldlM step s

@[simp] theorem scan_nil (s : State) : scan s [] = some s := rfl

@[simp] theorem scan_cons (s : State) (b : UInt8) (bs : Bytes) :
    scan s (b :: bs) = (step s b).bind fun t => scan t bs := rfl

@[simp] theorem scan_append (s : State) (as bs : Bytes) :
    scan s (as ++ bs) = (scan s as).bind fun t => scan t bs := List.foldlM_append

/-! ### Contained bytes -/

/-- Whether the reader comes out of the bytes as it went in: outside of strings, and with no
parenthesis closed that it did not open or opened that it did not close. -/
def isContained (bs : Bytes) : Bool :=
  (scan {} bs).any fun s => s.place.isOuter && s.depth == 0

theorem isContained_iff {bs : Bytes} :
    isContained bs ↔ ∃ place : Place, place.isOuter ∧ scan {} bs = some ⟨place, 0⟩ := by
  simp only [isContained, Option.any_eq_true, Bool.and_eq_true, beq_iff_eq]
  constructor
  · intro h
    obtain ⟨⟨place, depth⟩, hscan, hplace, rfl⟩ := h
    exact ⟨place, hplace, hscan⟩
  · intro h
    obtain ⟨place, hplace, hscan⟩ := h
    exact ⟨_, hscan, hplace, rfl⟩

/-- Parentheses around the bytes make no difference to the reader. -/
theorem step_deeper {s t : State} {b : UInt8} (h : step s b = some t) (k : Nat) :
    step ⟨s.place, s.depth + k⟩ b = some ⟨t.place, t.depth + k⟩ := by
  have outer_deeper : ∀ {depth : Nat} {t : State}, outer depth b = some t →
      outer (depth + k) b = some ⟨t.place, t.depth + k⟩ := by
    intro depth t h
    unfold outer at h ⊢
    cases depth with
    | zero => grind
    | succ depth => grind
  obtain ⟨place, depth⟩ := s
  -- Inside of strings and headers the depth is handed on as it is.
  cases place <;> simp only [step] at h ⊢ <;> grind

theorem scan_deeper {s t : State} {bs : Bytes} (h : scan s bs = some t) (k : Nat) :
    scan ⟨s.place, s.depth + k⟩ bs = some ⟨t.place, t.depth + k⟩ := by
  induction bs generalizing s with
  | nil =>
    cases h
    rfl
  | cons b bs ih =>
    rw [scan_cons, Option.bind_eq_some_iff] at h
    obtain ⟨s₁, hstep, hscan⟩ := h
    rw [scan_cons, step_deeper hstep k]
    exact ih hscan

theorem scan_of_isContained {bs : Bytes} (h : isContained bs) (depth : Nat) :
    ∃ place : Place, place.isOuter ∧ scan ⟨.outside, depth⟩ bs = some ⟨place, depth⟩ := by
  obtain ⟨place, hplace, hscan⟩ := isContained_iff.mp h
  have := scan_deeper hscan depth
  rw [Nat.zero_add] at this
  exact ⟨place, hplace, this⟩

/-- A space ends whatever may have been the beginning of a header. -/
theorem step_space {place : Place} (h : place.isOuter) (depth : Nat) :
    step ⟨place, depth⟩ Ascii.space = some ⟨.outside, depth⟩ := by
  cases place with
  | outside | brace | size | plus | header => rfl
  | headerEnd | literal | quoted | escaped => cases h

theorem step_closeParen {place : Place} (h : place.isOuter) (depth : Nat) :
    step ⟨place, depth + 1⟩ Ascii.closeParen = some ⟨.outside, depth⟩ := by
  cases place with
  | outside | brace | size | plus | header => rfl
  | headerEnd | literal | quoted | escaped => cases h

theorem isContained_space {as bs : Bytes} (ha : isContained as) :
    isContained (as ++ Ascii.space :: bs) = isContained bs := by
  obtain ⟨place, hplace, hscan⟩ := scan_of_isContained ha 0
  simp [isContained, hscan, step_space hplace]

theorem isContained_paren {bs : Bytes} (h : isContained bs) :
    isContained (Ascii.openParen :: bs ++ [Ascii.closeParen]) := by
  obtain ⟨place, hplace, hscan⟩ := scan_of_isContained h 1
  have hopen : step {} Ascii.openParen = some ⟨.outside, 1⟩ := rfl
  rw [isContained_iff]
  refine ⟨.outside, rfl, ?_⟩
  simp [hopen, hscan, step_closeParen hplace]

theorem isContained_intercalate {parts : List Bytes} (h : ∀ part ∈ parts, isContained part) :
    isContained ([Ascii.space].intercalate parts) := by
  induction parts with
  | nil => rfl
  | cons part parts ih =>
    cases parts with
    | nil =>
      rw [List.intercalate_singleton]
      exact h part (by simp)
    | cons next parts =>
      rw [List.intercalate_cons_cons, List.append_assoc, List.singleton_append,
        isContained_space (h part (by simp))]
      exact ih fun p hp => h p (List.mem_cons_of_mem _ hp)

/-! ### Plain bytes -/

/-- Whether the byte means nothing to the reader outside of strings. -/
def isPlain (b : UInt8) : Bool :=
  b ∉ [Ascii.cr, Ascii.lf, Ascii.openParen, Ascii.closeParen, Ascii.quote, Ascii.openBrace]

theorem isContained_of_isPlain {bs : Bytes} (h : ∀ b ∈ bs, isPlain b) : isContained bs := by
  have hscan : scan {} bs = some {} := by
    induction bs with
    | nil => rfl
    | cons b bs ih =>
      have hb : isPlain b := h b (by simp)
      simp only [isPlain, List.mem_cons, List.not_mem_nil, or_false, not_or, decide_eq_true_eq]
        at hb
      have hstep : step {} b = some {} := by
        simp only [step, outer]
        grind
      rw [scan_cons, hstep]
      exact ih fun c hc => h c (List.mem_cons_of_mem _ hc)
  exact isContained_iff.mpr ⟨.outside, rfl, hscan⟩

theorem isPlain_of_isDigit {b : UInt8} (h : Ascii.isDigit b) : isPlain b := by
  simp only [Ascii.isDigit, isPlain, List.mem_cons, List.not_mem_nil, or_false, not_or,
    Bool.and_eq_true, decide_eq_true_eq] at h ⊢
  grind

theorem isContained_encode (n : Nat) : isContained (Decimal.encode n) :=
  isContained_of_isPlain fun _ hb => isPlain_of_isDigit (Decimal.isDigit_of_mem_encode hb)

theorem isContained_sequenceSet (set : SequenceSet) : isContained set.encode := by
  refine isContained_of_isPlain fun b hb => ?_
  rcases SequenceSet.mem_encode hb with hb | rfl | rfl | rfl
  · exact isPlain_of_isDigit hb
  · decide
  · decide
  · decide

/-! ### Strings -/

theorem isContained_of_scan_quoted {bs : Bytes}
    (h : scan ⟨.quoted, 0⟩ bs = some ⟨.quoted, 0⟩) :
    isContained (Ascii.quote :: bs ++ [Ascii.quote]) := by
  have hopen : step {} Ascii.quote = some ⟨.quoted, 0⟩ := rfl
  have hclose : step ⟨.quoted, 0⟩ Ascii.quote = some {} := rfl
  exact isContained_iff.mpr ⟨.outside, rfl, by simp [hopen, h, hclose]⟩

theorem scan_quoted_of_isPlain {bs : Bytes} (h : ∀ b ∈ bs, isPlain b ∧ b ≠ Ascii.backslash) :
    scan ⟨.quoted, 0⟩ bs = some ⟨.quoted, 0⟩ := by
  induction bs with
  | nil => rfl
  | cons b bs ih =>
    obtain ⟨hplain, hb⟩ := h b (by simp)
    simp only [isPlain, List.mem_cons, List.not_mem_nil, or_false, not_or, decide_eq_true_eq]
      at hplain
    have hstep : step ⟨.quoted, 0⟩ b = some ⟨.quoted, 0⟩ := by
      simp only [step]
      grind
    rw [scan_cons, hstep]
    exact ih fun c hc => h c (List.mem_cons_of_mem _ hc)

theorem isContained_quoted {bs : Bytes} (h : ∀ b ∈ bs, ¬ Text.needsLiteral b) :
    isContained (Text.quoted bs) := by
  refine isContained_of_scan_quoted ?_
  induction bs with
  | nil => rfl
  | cons b bs ih =>
    have hb : ¬ (b = Ascii.cr ∨ b = Ascii.lf) := by
      intro hbreak
      rcases hbreak with rfl | rfl
      · exact h Ascii.cr (by simp) (by decide)
      · exact h Ascii.lf (by simp) (by decide)
    have hbyte : scan ⟨.quoted, 0⟩ (Text.quoteByte b) = some ⟨.quoted, 0⟩ := by
      unfold Text.quoteByte
      split
      next hescape => rcases hescape with rfl | rfl <;> rfl
      next hescape =>
        rw [not_or] at hescape
        simp [step, hescape.1, hescape.2, hb]
    rw [List.flatMap_cons, scan_append, hbyte]
    exact ih fun c hc => h c (List.mem_cons_of_mem _ hc)

/-- Digits behind an opening brace are a size. -/
theorem scan_digits {digits : Bytes} (h : ∀ b ∈ digits, Ascii.isDigit b) (n : Nat) :
    scan ⟨.size n, 0⟩ digits = some ⟨.size (digits.foldl Decimal.withDigit n), 0⟩ := by
  induction digits generalizing n with
  | nil => rfl
  | cons d digits ih =>
    have hd : Ascii.isDigit d := h d (by simp)
    have hstep : step ⟨.size n, 0⟩ d = some ⟨.size (Decimal.withDigit n d), 0⟩ := if_pos hd
    rw [scan_cons, hstep]
    exact ih (fun b hb => h b (List.mem_cons_of_mem _ hb)) _

theorem scan_literal (bs : Bytes) : scan ⟨.before bs.length, 0⟩ bs = some {} := by
  induction bs with
  | nil => rfl
  | cons b bs ih =>
    rw [scan_cons]
    exact ih

theorem isContained_literal (bs : Bytes) : isContained (Text.literal bs) := by
  have hsize : scan ⟨.brace, 0⟩ (Decimal.encode bs.length) = some ⟨.size bs.length, 0⟩ := by
    have hvalue : Decimal.value (Decimal.encode bs.length) = bs.length := Decimal.value_encode _
    -- The first digit tells the reader that the brace opens a header.
    cases hd : Decimal.encode bs.length with
    | nil => exact absurd hd (Decimal.encode_ne_nil _)
    | cons d digits =>
      have hdigits : ∀ b ∈ d :: digits, Ascii.isDigit b := by
        intro b hb
        exact Decimal.isDigit_of_mem_encode (hd ▸ hb)
      have hstep : step ⟨.brace, 0⟩ d = some ⟨.size (Decimal.withDigit 0 d), 0⟩ :=
        if_pos (hdigits d (by simp))
      rw [hd] at hvalue
      rw [scan_cons, hstep, ← hvalue]
      exact scan_digits (fun b hb => hdigits b (List.mem_cons_of_mem _ hb)) _
  have hopen : step {} Ascii.openBrace = some ⟨.brace, 0⟩ := rfl
  have hheader : scan ⟨.size bs.length, 0⟩ (Ascii.plus :: Ascii.closeBrace :: crlf)
      = some ⟨.before bs.length, 0⟩ := rfl
  refine isContained_iff.mpr ⟨.outside, rfl, ?_⟩
  have hparts : Text.literal bs = Ascii.openBrace :: (Decimal.encode bs.length
      ++ (Ascii.plus :: Ascii.closeBrace :: crlf ++ bs)) := by
    simp [Text.literal]
  rw [hparts, scan_cons, hopen, Option.bind_some, scan_append, hsize, Option.bind_some,
    scan_append, hheader, Option.bind_some]
  exact scan_literal bs

/-- A text is contained in what is written for it, be it what it may. -/
theorem isContained_argument (s : String) : isContained (Text.argument s) := by
  unfold Text.argument
  split
  next => exact isContained_literal _
  next h =>
    refine isContained_quoted ?_
    simpa [Text.isLiteral] using h

theorem isContained_date (d : Date) : isContained d.encode := by
  have digit : ∀ {b : UInt8}, Ascii.isDigit b → isPlain b ∧ b ≠ Ascii.backslash := by
    intro b hb
    exact ⟨isPlain_of_isDigit hb, Decimal.ne_of_isDigit hb (by decide)⟩
  have month : ∀ b ∈ Date.monthName d.month, isPlain b ∧ b ≠ Ascii.backslash := by
    have hall : (Date.monthName d.month).all fun b => isPlain b && b != Ascii.backslash := by
      unfold Date.monthName
      split <;> decide
    simpa using hall
  have year : ∀ b ∈ Date.encodeYear d.year, isPlain b ∧ b ≠ Ascii.backslash := by
    intro b hb
    unfold Date.encodeYear at hb
    split at hb
    · rcases List.mem_cons.mp hb with rfl | hb
      · decide
      · exact digit (Decimal.isDigit_of_mem_padded hb)
    · split at hb
      · rcases List.mem_cons.mp hb with rfl | hb
        · decide
        · exact digit (Decimal.isDigit_of_mem_padded hb)
      · exact digit (Decimal.isDigit_of_mem_padded hb)
  have content : ∀ b ∈ Decimal.encode d.day ++ Ascii.minus :: Date.monthName d.month
      ++ Ascii.minus :: Date.encodeYear d.year, isPlain b ∧ b ≠ Ascii.backslash := by
    intro b hb
    simp only [List.mem_append, List.mem_cons] at hb
    rcases hb with (hb | rfl | hb) | rfl | hb
    · exact digit (Decimal.isDigit_of_mem_encode hb)
    · decide
    · exact month b hb
    · decide
    · exact year b hb
  exact isContained_of_scan_quoted (scan_quoted_of_isPlain content)

/-! ### Items -/

/-- A word, a space and a contained argument. -/
theorem isContained_searchItem {word : String} {argument : Bytes}
    (hword : isContained (utf8 word)) (h : isContained argument) :
    isContained (searchItem word argument) := by
  rw [searchItem, isContained_space hword]
  exact h

theorem isContained_headerField (field : HeaderField) : isContained field.item := by
  have words : ∀ word ∈ headerWords, isContained word := by decide
  unfold HeaderField.item
  dsimp only
  split
  next hword =>
    rw [isContained_space (words _ hword)]
    exact isContained_argument _
  next =>
    refine isContained_searchItem (by decide) ?_
    rw [isContained_space (isContained_argument _)]
    exact isContained_argument _

theorem isContained_setItem {flag : Flag}
    (h : ∀ name, flag = .keyword name → isContained (utf8 name)) : isContained flag.setItem := by
  cases flag with
  | system flag => cases flag <;> decide
  | keyword name => exact isContained_searchItem (by decide) (h name rfl)

theorem isContained_unsetItem {flag : Flag}
    (h : ∀ name, flag = .keyword name → isContained (utf8 name)) : isContained flag.unsetItem := by
  cases flag with
  | system flag => cases flag <;> decide
  | keyword name => exact isContained_searchItem (by decide) (h name rfl)

theorem isContained_dateItems {on since before : String} (hon : isContained (utf8 on))
    (hsince : isContained (utf8 since)) (hbefore : isContained (utf8 before))
    (lower upper : Option Date) :
    ∀ item ∈ dateItems on since before lower upper, isContained item := by
  unfold dateItems
  split
  next day _ => simpa using isContained_searchItem hon (isContained_date day)
  next =>
    simp only [List.forall_mem_append, List.forall_mem_map]
    exact ⟨fun day _ => isContained_searchItem hsince (isContained_date day),
      fun day _ => isContained_searchItem hbefore (isContained_date day)⟩

/-- Whether the names of all keywords are contained. -/
def KeywordsContained (c : Conditions) : Prop := c.EveryKeyword fun name => isContained (utf8 name)

theorem isContained_items {c : Conditions} (h : KeywordsContained c) :
    ∀ item ∈ c.items, isContained item := by
  have optional : ∀ {absent : Prop} [Decidable absent] {item : Bytes}, isContained item →
      ∀ i ∈ (if absent then [] else [item]), isContained i := by
    intro absent _ item hitem
    by_cases habsent : absent
    · simp [habsent]
    · simpa [habsent] using hitem
  simp only [Conditions.items, List.forall_mem_append, List.forall_mem_map]
  refine ⟨⟨⟨⟨⟨⟨⟨⟨⟨⟨?seqNums, ?uids⟩, ?arrived⟩, ?sent⟩, ?headers⟩, ?body⟩, ?text⟩, ?flags⟩,
    ?notFlags⟩, ?larger⟩, ?smaller⟩
  case seqNums => exact optional (isContained_sequenceSet _)
  case uids => exact optional (isContained_searchItem (by decide) (isContained_sequenceSet _))
  case arrived => exact isContained_dateItems (by decide) (by decide) (by decide) _ _
  case sent => exact isContained_dateItems (by decide) (by decide) (by decide) _ _
  case headers => exact fun field _ => isContained_headerField field
  case body => exact fun s _ => isContained_searchItem (by decide) (isContained_argument s)
  case text => exact fun s _ => isContained_searchItem (by decide) (isContained_argument s)
  case flags =>
    intro flag hflag
    refine isContained_setItem fun name hname => ?_
    subst hname
    exact h name (List.mem_append_left _ hflag)
  case notFlags =>
    intro flag hflag
    refine isContained_unsetItem fun name hname => ?_
    subst hname
    exact h name (List.mem_append_right _ hflag)
  case larger => exact optional (isContained_searchItem (by decide) (isContained_encode _))
  case smaller => exact optional (isContained_searchItem (by decide) (isContained_encode _))

/-! ### Trees -/

theorem exists_searchKey {items : List Bytes} (h : ∀ item ∈ items, isContained item) :
    ∃ inner, searchKey items = Ascii.openParen :: inner ++ [Ascii.closeParen] ∧
      isContained inner := by
  refine ⟨_, rfl, ?_⟩
  split
  · decide
  · exact isContained_intercalate h

mutual

/-- Criteria are written in parentheses around contained bytes. -/
theorem exists_encode : ∀ {c : Criteria}, c.Every KeywordsContained →
    ∃ inner, c.encode = Ascii.openParen :: inner ++ [Ascii.closeParen] ∧ isContained inner
  | ⟨conditions, excluded, alternatives⟩, ⟨hconditions, hexcluded, halternatives⟩ => by
    rw [Criteria.encode]
    refine exists_searchKey ?_
    rw [List.forall_mem_append, List.forall_mem_append]
    exact ⟨⟨isContained_items hconditions, isContained_excludedItems hexcluded⟩,
      isContained_alternativeItems halternatives⟩

theorem isContained_excludedItems : ∀ {cs : List Criteria}, EveryExcluded KeywordsContained cs →
    ∀ item ∈ excludedItems cs, isContained item
  | [], _ => by simp [excludedItems]
  | c :: rest, ⟨hc, hrest⟩ => by
    obtain ⟨inner, he, hinner⟩ := exists_encode hc
    rw [excludedItems, List.forall_mem_cons, he]
    exact ⟨isContained_searchItem (by decide) (isContained_paren hinner),
      isContained_excludedItems hrest⟩

theorem isContained_alternativeItems : ∀ {cs : List (Criteria × Criteria)},
    EveryAlternative KeywordsContained cs → ∀ item ∈ alternativeItems cs, isContained item
  | [], _ => by simp [alternativeItems]
  | (left, right) :: rest, ⟨hleft, hright, hrest⟩ => by
    obtain ⟨l, hl, hlinner⟩ := exists_encode hleft
    obtain ⟨r, hr, hrinner⟩ := exists_encode hright
    rw [alternativeItems, List.forall_mem_cons, hl, hr]
    refine ⟨isContained_searchItem (by decide) ?_, isContained_alternativeItems hrest⟩
    rw [isContained_space (isContained_paren hlinner)]
    exact isContained_paren hrinner

end

end ImapSearch.Wire

namespace ImapSearch

open Wire

/-! ### Commands -/

/-- A tag of a letter and digits. -/
def Tag.IsPlain (tag : Tag) : Prop :=
  ∃ letter digits, utf8 tag.text = letter :: digits ∧
    (0x41 ≤ Ascii.upper letter ∧ Ascii.upper letter ≤ 0x5A) ∧ ∀ d ∈ digits, Ascii.isDigit d

namespace Command

/-- What stands in front of the search key of a command. -/
def head (c : Command) (tag : Tag) : Bytes :=
  utf8 tag.text ++ Ascii.space :: utf8 c.kind.name ++ returnClause c.options ++ [Ascii.space]

/-- Whether the bytes of the command are one command. Up to the final line terminator the reader
finds no other one, outside of strings and headers of literals; and the parenthesis behind the head
is the one that the last parenthesis closes. -/
def IsOneCommand (c : Command) (tag : Tag) : Prop :=
  isContained (c.head tag) ∧ ∃ inner, isContained inner ∧
    c.encode tag = c.head tag ++ Ascii.openParen :: inner ++ Ascii.closeParen :: crlf

theorem isContained_head (c : Command) {tag : Tag} (h : tag.IsPlain) :
    isContained (c.head tag) := by
  have htag : isContained (utf8 tag.text) := by
    obtain ⟨letter, digits, ht, hletter, hdigits⟩ := h
    rw [ht]
    refine isContained_of_isPlain (List.forall_mem_cons.mpr ⟨?_, fun d hd => ?_⟩)
    · simp only [isPlain, Ascii.upper] at hletter ⊢
      grind
    · exact isPlain_of_isDigit (hdigits d hd)
  have hkind : isContained (utf8 c.kind.name) := by
    cases c.kind <;> decide
  have hoptions : isContained
      ([Ascii.space].intercalate (c.options.map fun o => utf8 o.name)) := by
    refine isContained_intercalate ?_
    simp only [List.forall_mem_map]
    intro o _
    cases o <;> decide
  by_cases hnone : c.options = []
  · have hparts : c.head tag
        = utf8 tag.text ++ Ascii.space :: (utf8 c.kind.name ++ Ascii.space :: []) := by
      simp [head, returnClause, hnone]
    rw [hparts, isContained_space htag, isContained_space hkind]
    rfl
  · have hreturn : utf8 " RETURN ("
        = Ascii.space :: (utf8 "RETURN" ++ [Ascii.space, Ascii.openParen]) := rfl
    have hparts : c.head tag = utf8 tag.text ++ Ascii.space :: (utf8 c.kind.name ++ Ascii.space ::
        (utf8 "RETURN" ++ Ascii.space :: ((Ascii.openParen ::
          [Ascii.space].intercalate (c.options.map fun o => utf8 o.name) ++ [Ascii.closeParen])
            ++ Ascii.space :: []))) := by
      simp [head, returnClause, hnone, hreturn]
    rw [hparts, isContained_space htag, isContained_space hkind, isContained_space (by decide),
      isContained_space (isContained_paren hoptions)]
    rfl

/-- The criterion of a keyword has nothing around the keyword. -/
theorem encode_keyword (name : String) : (Criteria.flagged (.keyword name)).encode
    = Ascii.openParen :: searchItem "KEYWORD" (utf8 name) ++ [Ascii.closeParen] := by
  have hitems : ({ flags := [.keyword name] } : Conditions).items
      = [searchItem "KEYWORD" (utf8 name)] := by
    simp [Conditions.items, SequenceSet.isEmpty, dateItems, singleDay?, Flag.setItem,
      Flag.setKey?, Flag.name]
  rw [Criteria.flagged, Criteria.encode, hitems]
  simp [excludedItems, alternativeItems, searchKey]

/-- A command is one command for whatever texts and sets it holds, at every depth, if the names of
its keywords are contained; and no other names will do. -/
theorem forall_isOneCommand_iff {Safe : String → Prop} :
    (∀ (c : Command) (tag : Tag), tag.IsPlain →
        c.criteria.Every (Conditions.EveryKeyword Safe) → c.IsOneCommand tag) ↔
      ∀ name, Safe name → isContained (utf8 name) := by
  constructor
  · intro h name hname
    -- A command for this keyword alone has nothing else between its parentheses.
    let c : Command := ⟨.flagged (.keyword name), [], .search⟩
    have htag : Tag.IsPlain ⟨"A"⟩ := ⟨0x41, [], rfl, by decide, by simp⟩
    have hc : c.criteria.Every (Conditions.EveryKeyword Safe) := by
      refine ⟨fun other hother => ?_, trivial, trivial⟩
      obtain rfl : other = name := by simpa using hother
      exact hname
    obtain ⟨-, inner, hinner, he⟩ := h c ⟨"A"⟩ htag hc
    obtain rfl : inner = searchItem "KEYWORD" (utf8 name) := by
      simpa [c, encode, head, encode_keyword, crlf] using he.symm
    rw [searchItem, isContained_space (by decide)] at hinner
    exact hinner
  · intro h c tag htag hc
    have hcontained : c.criteria.Every KeywordsContained :=
      hc.mono fun conditions hconditions name hmem => h name (hconditions name hmem)
    obtain ⟨inner, he, hinner⟩ := exists_encode hcontained
    exact ⟨c.isContained_head htag, inner, hinner, by simp [encode, head, he]⟩

/-- A line break in the name of a keyword ends the command, and what follows it is another one. -/
example : ¬ isContained (utf8 "x\r\nA2 LOGOUT") := by decide

end Command

end ImapSearch
