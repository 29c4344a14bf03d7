import ImapSearch.Proofs.SearchKey.OfCriteria
import ImapSearch.Proofs.SearchKey.Read
import ImapSearch.Proofs.SequenceSet.Reachable
import ImapSearch.Proofs.SequenceSet.Text

/-!
# ImapSearch.Proofs.SearchKey.Items

**Values and items, read back.** The encoder writes a search key as items with
spaces between them. Inside of a key, an item is followed by a space or by the
closing parenthesis (`Delimited`), and that is where a reader stops that takes
the longest run of digits, of letters or of the bytes of a set.

Each section is about one kind of value: the reader takes back what the encoder
wrote and leaves what follows. An item is a word of the grammar with such a value
behind it (`opening_word`).
-/

namespace ImapSearch.SearchKey

/-! ### What follows an item -/

/-- Bytes that can follow an item: none, or a space or the closing parenthesis first. -/
def Delimited (rest : Bytes) : Prop :=
  ∀ b ∈ rest.head?, b = Ascii.space ∨ b = Ascii.closeParen

theorem delimited_space (rest : Bytes) : Delimited (Ascii.space :: rest) :=
  forall_mem_head?_cons (.inl rfl) rest

theorem delimited_closeParen (rest : Bytes) : Delimited (Ascii.closeParen :: rest) :=
  forall_mem_head?_cons (.inr rfl) rest

/-- A run of bytes ends at the delimiter, if its bytes are no delimiters. -/
theorem Delimited.stop {rest : Bytes} (h : Delimited rest) {p : UInt8 → Bool}
    (hs : ¬ p Ascii.space) (hc : ¬ p Ascii.closeParen) : ∀ b ∈ rest.head?, ¬ p b := by
  intro b hb
  rcases h b hb with rfl | rfl
  · exact hs
  · exact hc

theorem run_append {p : UInt8 → Bool} {taken rest : Bytes} (hne : taken ≠ [])
    (htaken : ∀ b ∈ taken, p b) (hrest : ∀ b ∈ rest.head?, ¬ p b) :
    run p (taken ++ rest) = some (taken, rest) := by
  rw [run, span_append htaken hrest]
  cases taken with
  | nil => exact absurd rfl hne
  | cons b taken => rfl

/-! ### Numbers -/

theorem number_digits {fits : Nat → Bool} {digits rest : Bytes} {n : Nat}
    (hn : Decimal.decode? digits = some n) (hfits : fits digits.length)
    (hrest : ∀ b ∈ rest.head?, ¬ Ascii.isDigit b) :
    number fits (digits ++ rest) = some (n, rest) := by
  obtain ⟨⟨hne, hall⟩, -⟩ := Option.ite_none_right_eq_some.mp hn
  have hrun : run Ascii.isDigit (digits ++ rest) = some (digits, rest) :=
    run_append hne (by simpa using hall) hrest
  simp [number, hrun, hfits, hn]

theorem number_encode {fits : Nat → Bool} {n : Nat} {rest : Bytes}
    (hfits : fits (Decimal.encode n).length) (hrest : ∀ b ∈ rest.head?, ¬ Ascii.isDigit b) :
    number fits (Decimal.encode n ++ rest) = some (n, rest) :=
  number_digits (Decimal.decode?_encode n) hfits hrest

/-! ### Strings -/

theorem quoted_close (rest : Bytes) : quoted (Ascii.quote :: rest) = some ([], rest) := by
  rw [quoted.eq_def]
  exact if_pos rfl

theorem quoted_escape {e : UInt8} (he : e = Ascii.quote ∨ e = Ascii.backslash) (bs : Bytes) :
    quoted (Ascii.backslash :: e :: bs) = (quoted bs).map fun (s, rest) => (e :: s, rest) := by
  rw [quoted.eq_def]
  simp only [if_pos he]
  rfl

theorem quoted_plain {b : UInt8} (hb : ¬ (b = Ascii.quote ∨ b = Ascii.backslash))
    (ht : isTextChar b) (bs : Bytes) :
    quoted (b :: bs) = (quoted bs).map fun (s, rest) => (b :: s, rest) := by
  rw [not_or] at hb
  rw [quoted.eq_def]
  simp only [if_neg hb.1, if_neg hb.2, if_pos ht]

/-- What needs no literal can stand between quotes, and is read back from there. -/
theorem quoted_append {bs : Bytes} (h : ∀ b ∈ bs, ¬ Text.needsLiteral b) (rest : Bytes) :
    quoted (bs.flatMap Text.quoteByte ++ Ascii.quote :: rest) = some (bs, rest) := by
  induction bs with
  | nil => exact quoted_close rest
  | cons b bs ih =>
    have ih := ih fun c hc => h c (by simp [hc])
    rw [List.flatMap_cons, Text.quoteByte, List.append_assoc]
    split
    next hb =>
      simp only [List.cons_append, List.nil_append]
      rw [quoted_escape hb, ih]
      rfl
    next hb =>
      have text : isTextChar b := by
        have hb := h b (by simp)
        simp only [Text.needsLiteral, isTextChar] at hb ⊢
        grind
      simp only [List.cons_append, List.nil_append]
      rw [quoted_plain hb text, ih]
      rfl

theorem literal_append (bs rest : Bytes) :
    literal (Decimal.encode bs.length ++ [Ascii.plus, Ascii.closeBrace] ++ crlf ++ bs ++ rest)
      = some (bs, rest) := by
  have size : number (fun _ => true) (Decimal.encode bs.length ++
      Ascii.plus :: Ascii.closeBrace :: Ascii.cr :: Ascii.lf :: (bs ++ rest)) =
      some (bs.length, Ascii.plus :: Ascii.closeBrace :: Ascii.cr :: Ascii.lf :: (bs ++ rest)) :=
    number_encode rfl (forall_mem_head?_cons (by decide) _)
  simp [literal, size, crlf]

/-- A text is read back as its bytes, quoted or not. -/
theorem string_argument (s : String) (rest : Bytes) :
    string (Text.argument s ++ rest) = some (utf8 s, rest) := by
  unfold Text.argument
  split
  next => exact literal_append (utf8 s) rest
  next h =>
    have plain : ∀ b ∈ utf8 s, ¬ Text.needsLiteral b := by
      simpa [Text.isLiteral] using h
    rw [Text.quoted, List.append_assoc, List.cons_append]
    exact quoted_append plain rest

/-! ### Dates -/

theorem month_monthName {m : Nat} (hl : 1 ≤ m) (hu : m ≤ 12) (rest : Bytes) :
    month (Date.monthName m ++ rest) = some (m, rest) := by
  have names : ∀ i < 12, (Date.monthName (i + 1)).length = 3 ∧
      monthNames.findIdx? (· = upperCase (Date.monthName (i + 1))) = some i := by decide
  obtain ⟨i, rfl⟩ : ∃ i, m = i + 1 := ⟨m - 1, by omega⟩
  obtain ⟨hlen, hfind⟩ := names i (by omega)
  simp [month, ← hlen, hfind]

/-- The years that a grammar can read. -/
def Grammar.Reads (g : Grammar) (year : Int) : Prop := g.longYears ∨ 0 ≤ year ∧ year ≤ 9999

theorem length_padded_of_le {n : Nat} (h : n ≤ 9999) : (Decimal.padded 4 n).length = 4 := by
  have := (Decimal.length_encode_le_iff (n := n) (k := 4) (by decide)).mpr (by omega)
  rw [Decimal.length_padded]
  omega

theorem sign_padded (width n : Nat) (rest : Bytes) :
    sign (Decimal.padded width n ++ rest) = none := by
  cases hp : Decimal.padded width n with
  | nil => simp [Decimal.padded, Decimal.encode_ne_nil] at hp
  | cons b bs =>
    have hmem : b ∈ Decimal.padded width n := by simp [hp]
    have hb := Decimal.isDigit_of_mem_padded hmem
    have hm : b ≠ Ascii.minus := Decimal.ne_of_isDigit hb (by decide)
    have hp : b ≠ Ascii.plus := Decimal.ne_of_isDigit hb (by decide)
    rw [List.cons_append, sign, if_neg hm, if_neg hp]

theorem year_encodeYear {g : Grammar} {y : Int} (hy : Grammar.Reads g y) {rest : Bytes}
    (hrest : ∀ b ∈ rest.head?, ¬ Ascii.isDigit b) :
    year g (Date.encodeYear y ++ rest) = some (y, rest) := by
  have digits : ∀ (n : Nat) (fits : Nat → Bool), fits (Decimal.padded 4 n).length →
      number fits (Decimal.padded 4 n ++ rest) = some (n, rest) :=
    fun n fits hfits => number_digits (Decimal.decode?_padded 4 n) hfits hrest
  have long : ∀ n, number (4 ≤ ·) (Decimal.padded 4 n ++ rest) = some (n, rest) := by
    intro n
    refine digits n _ (decide_eq_true ?_)
    rw [Decimal.length_padded]
    omega
  -- Only years of four digits go without a sign, and they are all that some grammars have.
  unfold Date.encodeYear
  split
  next hneg =>
    have hg : g.longYears := hy.resolve_right (by omega)
    have hval : -1 * (y.natAbs : Int) = y := by omega
    have hsign : ∀ bs, sign (Ascii.minus :: bs) = some (-1, bs) := fun _ => rfl
    simp only [year, hg, if_true, List.cons_append, hsign, long, Option.map_some, hval]
  next hpos =>
    split
    next hbig =>
      have hg : g.longYears := hy.resolve_right (by omega)
      have hval : 1 * (y.natAbs : Int) = y := by omega
      have hsign : ∀ bs, sign (Ascii.plus :: bs) = some (1, bs) := fun _ => rfl
      simp only [year, hg, if_true, List.cons_append, hsign, long, Option.map_some, hval]
    next hsmall =>
      have hval : (y.natAbs : Int) = y := by omega
      have four : number (· == 4) (Decimal.padded 4 y.natAbs ++ rest) = some (y.natAbs, rest) :=
        digits _ _ (by simp [length_padded_of_le (n := y.natAbs) (by omega)])
      simp only [year, sign_padded, ite_self, four, Option.map_some, hval]

/-- A day is read back, if the grammar has such years. -/
theorem date_encode {g : Grammar} {d : Date} (hd : Grammar.Reads g d.year) (rest : Bytes) :
    date g (d.encode ++ rest) = some (d, rest) := by
  have hm := d.month_bounds
  have two : (Decimal.encode d.day).length ≤ 2 := by
    have hday := d.day_bounds
    have days : Date.daysIn d.year d.month ≤ 31 := by
      unfold Date.daysIn
      split <;> (try split) <;> omega
    rw [Decimal.length_encode_le_iff (by decide)]
    omega
  have hday : ∀ tail, number (· ≤ 2) (Decimal.encode d.day ++ Ascii.minus :: tail)
      = some (d.day, Ascii.minus :: tail) :=
    fun tail => number_encode (decide_eq_true two) (forall_mem_head?_cons (by decide) tail)
  have hyear : year g (Date.encodeYear d.year ++ Ascii.quote :: rest)
      = some (d.year, Ascii.quote :: rest) :=
    year_encodeYear hd (forall_mem_head?_cons (by decide) rest)
  have hparts := Date.ofParts?_eq_some_iff.mpr (⟨rfl, rfl, rfl⟩ : d.year = d.year ∧ _)
  simp [date, dateText, Date.encode, hday, month_monthName hm.1 hm.2, hyear, hparts]

/-! ### Sequence sets -/

theorem bound?_encode {b : Bound} (h : b.Valid) : bound? b.encode = some b := by
  cases b with
  | star => rfl
  | number n =>
    have hn : isNumber n := h
    have hpos : n ≠ 0 := by
      intro hzero
      subst hzero
      exact absurd hn (by decide)
    rw [Bound.encode, bound?, if_neg (Decimal.encode_ne_star n),
      if_neg (Decimal.head?_encode hpos), Decimal.decode?_encode]
    simp [hn]

theorem range?_encode {r : SeqRange} (h : r.Valid) : range? r.encode = some r := by
  rcases SeqRange.exists_bounds h with ⟨b, hb, he, rfl⟩ | ⟨a, b, ha, hb, he, rfl⟩
  · rw [he, range?, List.splitOn_eq_singleton b.colon_notMem_encode]
    simp [bound?_encode hb]
  · rw [he, range?, List.splitOn_append_cons_self_of_not_mem a.colon_notMem_encode,
      List.splitOn_eq_singleton b.colon_notMem_encode]
    simp [bound?_encode ha, bound?_encode hb]

theorem isSetByte_of_mem_encode {set : SequenceSet} {c : UInt8} (hc : c ∈ set.encode) :
    isSetByte c := by
  rcases SequenceSet.mem_encode hc with hc | rfl | rfl | rfl
  · simp [isSetByte, hc]
  · decide
  · decide
  · decide

/-- A set is read back range by range. -/
theorem ranges_encode {set : SequenceSet} (h : set.Valid) (hne : set.isEmpty = false) {rest : Bytes}
    (hrest : Delimited rest) : ranges (set.encode ++ rest) = some (set.ranges, rest) := by
  have hrun : run isSetByte (set.encode ++ rest) = some (set.encode, rest) :=
    run_append (SequenceSet.encode_ne_nil hne) (fun _ => isSetByte_of_mem_encode)
      (hrest.stop (by decide) (by decide))
  have hread : (set.ranges.map SeqRange.encode).mapM range? = some set.ranges := by
    rw [mapM_eq_some_iff, List.forall₂_map_left_iff, List.forall₂_same]
    exact fun r hr => range?_encode (h r hr)
  simp [ranges, hrun, SequenceSet.splitOn_encode hne, hread]

/-! ### Words -/

/-- Whether the bytes are a word of the grammar: upper-case letters, one at least. -/
def isWord (bs : Bytes) : Bool := bs ≠ [] && bs.all fun b => 0x41 ≤ b && b ≤ 0x5A

/-- A word is followed by what its form says. -/
theorem opening_word {g : Grammar} {word rest : Bytes} {form : Form} (hw : isWord word)
    (hf : form? word = some form) (hrest : Delimited rest) :
    opening g (word ++ rest) = form.read g rest := by
  simp only [isWord, ne_eq, Bool.and_eq_true, decide_eq_true_eq, List.all_eq_true] at hw
  obtain ⟨hne, hletters⟩ := hw
  have hrun : run isAtomChar (word ++ rest) = some (word, rest) := by
    refine run_append hne (fun b hb => ?_) (hrest.stop (by decide) (by decide))
    have hb := hletters b hb
    simp only [isAtomChar, List.mem_cons, List.not_mem_nil, or_false, not_or, Bool.and_eq_true,
      decide_eq_true_eq]
    grind
  -- A letter opens neither a group nor a set.
  cases word with
  | nil => exact absurd rfl hne
  | cons b word =>
    have hb := hletters b (by simp)
    have hparen : b ≠ Ascii.openParen := by grind
    have hset : ¬ isSetByte b := by
      simp only [isSetByte, Ascii.isDigit]
      grind
    rw [List.cons_append] at hrun ⊢
    rw [opening, if_neg hparen, if_neg hset, hrun]
    simp [hf]

/-! ### Items -/

/-- The item is read as the key, wherever it stands inside of another key. -/
def ReadsAs (g : Grammar) (item : Bytes) (key : SearchKey) : Prop :=
  ∀ rest, Delimited rest → read g (item ++ rest) = some (key, rest)

/-- An item is read as a key if its beginning is. -/
theorem ReadsAs.of_opening {g : Grammar} {item : Bytes} {key : SearchKey} (hne : item ≠ [])
    (h : ∀ rest, Delimited rest → opening g (item ++ rest) = some (.whole key, rest)) :
    ReadsAs g item key := by
  intro rest hrest
  have hlt : rest.length < (item ++ rest).length := by
    have := List.length_pos_iff.mpr hne
    rw [List.length_append]
    omega
  exact read_of_whole (h rest hrest) hlt

theorem readsAs_alone {g : Grammar} {word : Bytes} {key : SearchKey} (hw : isWord word)
    (hf : form? word = some (.alone key)) : ReadsAs g word key := by
  have hne : word ≠ [] := by
    intro hnil
    subst hnil
    cases hw
  refine .of_opening hne fun rest hrest => ?_
  rw [opening_word hw hf hrest]
  rfl

/-- A word and a value behind it, if the form of the word reads the value. -/
theorem readsAs_value {g : Grammar} {word value : Bytes} {form : Form} {key : SearchKey}
    (hw : isWord word) (hf : form? word = some form)
    (hv : ∀ rest, Delimited rest →
      form.read g (Ascii.space :: (value ++ rest)) = some (.whole key, rest)) :
    ReadsAs g (word ++ Ascii.space :: value) key := by
  refine .of_opening (by simp) fun rest hrest => ?_
  rw [List.append_assoc, List.cons_append, opening_word hw hf (delimited_space _)]
  exact hv rest hrest

theorem readsAs_string {g : Grammar} {word : Bytes} {key : Bytes → SearchKey} (hw : isWord word)
    (hf : form? word = some (.string key)) (s : String) :
    ReadsAs g (word ++ Ascii.space :: Text.argument s) (key (utf8 s)) :=
  readsAs_value hw hf fun rest _ => by simp [Form.read, string_argument]

theorem readsAs_date {g : Grammar} {word : Bytes} {key : Date → SearchKey} (hw : isWord word)
    (hf : form? word = some (.date key)) {day : Date} (hd : Grammar.Reads g day.year) :
    ReadsAs g (word ++ Ascii.space :: day.encode) (key day) :=
  readsAs_value hw hf fun rest _ => by simp [Form.read, date_encode hd]

theorem readsAs_number {g : Grammar} {word : Bytes} {key : Nat → SearchKey} (hw : isWord word)
    (hf : form? word = some (.number key)) (n : Nat) :
    ReadsAs g (word ++ Ascii.space :: Decimal.encode n) (key n) :=
  readsAs_value hw hf fun rest hrest => by
    have hn : number (fun _ => true) (Decimal.encode n ++ rest) = some (n, rest) :=
      number_encode rfl (hrest.stop (by decide) (by decide))
    simp [Form.read, hn]

theorem readsAs_keyword {g : Grammar} {word name : Bytes} {key : Bytes → SearchKey}
    (hw : isWord word) (hf : form? word = some (.keyword key)) (hne : name ≠ [])
    (hname : ∀ b ∈ name, g.nameByte b) : ReadsAs g (word ++ Ascii.space :: name) (key name) :=
  readsAs_value hw hf fun rest hrest => by
    have hrun := run_append hne hname
      (hrest.stop g.not_nameByte_space g.not_nameByte_closeParen)
    simp [Form.read, hrun]

theorem readsAs_uid {g : Grammar} {set : SequenceSet} (h : set.Valid) (hne : set.isEmpty = false) :
    ReadsAs g (searchItem "UID" set.encode) (.uid set.ranges) :=
  readsAs_value (by decide) (rfl : _ = some Form.ranges) fun rest hrest => by
    simp [Form.read, ranges_encode h hne hrest]

/-- A set without a word is told from a word by its first byte. -/
theorem readsAs_numbered {g : Grammar} {set : SequenceSet} (h : set.Valid)
    (hne : set.isEmpty = false) : ReadsAs g set.encode (.numbered set.ranges) := by
  have hnil := SequenceSet.encode_ne_nil hne
  refine .of_opening hnil fun rest hrest => ?_
  have hread := ranges_encode h hne hrest
  cases he : set.encode with
  | nil => exact absurd he hnil
  | cons b bs =>
    have hmem : b ∈ set.encode := by simp [he]
    have hb := isSetByte_of_mem_encode hmem
    have hparen : b ≠ Ascii.openParen := by
      intro heq
      subst heq
      exact absurd hb (by decide)
    rw [he, List.cons_append] at hread
    rw [List.cons_append, opening, if_neg hparen, if_pos hb, hread]
    rfl

/-- A header field is read by its name in any case: some names are words of their own. -/
theorem readsAs_header (g : Grammar) (field : HeaderField) :
    ReadsAs g field.item field.key := by
  unfold HeaderField.item HeaderField.key
  dsimp only
  by_cases hword : upperCase (utf8 field.name) ∈ headerWords
  · rw [if_pos hword, if_pos (List.contains_iff_mem.mpr hword)]
    have words : ∀ w ∈ headerWords, isWord w ∧ form? w = some (.string (.header w)) := by
      simp only [headerWords, List.map_cons, List.map_nil, List.forall_mem_cons]
      exact ⟨⟨by decide, rfl⟩, ⟨by decide, rfl⟩, ⟨by decide, rfl⟩, ⟨by decide, rfl⟩,
        ⟨by decide, rfl⟩, by simp⟩
    obtain ⟨hw, hf⟩ := words _ hword
    exact readsAs_string hw hf field.value
  · rw [if_neg hword, if_neg (mt List.contains_iff_mem.mp hword)]
    refine readsAs_value (by decide) (rfl : _ = some Form.field) fun rest _ => ?_
    simp [Form.read, string_argument]

/-! ### Items with keys in them -/

theorem readsAs_not {g : Grammar} {inner : Bytes} {key : SearchKey}
    (h : ∀ rest, read g (inner ++ rest) = some (key, rest)) :
    ReadsAs g (searchItem "NOT" inner) (.not key) := by
  intro rest _
  have ho := opening_word (g := g) (by decide) (rfl : form? (utf8 "NOT") = some .not)
    (delimited_space (inner ++ rest))
  rw [searchItem, List.append_assoc, List.cons_append]
  refine read_of_not ho ?_ (h rest)
  simp only [List.length_append, List.length_cons]
  omega

theorem readsAs_or {g : Grammar} {left right : Bytes} {leftKey rightKey : SearchKey}
    (hl : ∀ rest, read g (left ++ rest) = some (leftKey, rest))
    (hr : ∀ rest, read g (right ++ rest) = some (rightKey, rest)) :
    ReadsAs g (searchItem "OR" (left ++ Ascii.space :: right)) (.or leftKey rightKey) := by
  intro rest _
  have ho := opening_word (g := g) (by decide) (rfl : form? (utf8 "OR") = some .or)
    (delimited_space (left ++ Ascii.space :: (right ++ rest)))
  simp only [searchItem, List.append_assoc, List.cons_append]
  refine read_of_or ho ?_ (hl _) (hr rest)
  simp only [List.length_append, List.length_cons]
  omega

/-- Items with spaces between them are read one by one, up to the parenthesis that closes them. -/
theorem readAll_items {g : Grammar} {items : List Bytes} {keys : List SearchKey}
    (h : List.Forall₂ (ReadsAs g) items keys) (hne : items ≠ []) (rest : Bytes) :
    readAll g ([Ascii.space].intercalate items ++ Ascii.closeParen :: rest)
      = some (keys, rest) := by
  induction h with
  | nil => exact absurd rfl hne
  | @cons item key items keys hread htail ih =>
    -- What stands behind an item, a parenthesis or a space, says whether it is the last one.
    cases htail with
    | nil =>
      rw [List.intercalate_singleton]
      exact readAll_last (hread _ (delimited_closeParen rest))
    | cons hnext htail =>
      rw [List.intercalate_cons_cons, List.append_assoc, List.append_assoc, List.singleton_append]
      exact readAll_more (hread _ (delimited_space _)) (ih (List.cons_ne_nil _ _))

/-- Items in parentheses are one key; without items, `ALL` stands for them. -/
theorem read_searchKey {g : Grammar} {items : List Bytes} {keys : List SearchKey}
    (h : List.Forall₂ (ReadsAs g) items keys) (rest : Bytes) :
    read g (searchKey items ++ rest) = some (.groupOf keys, rest) := by
  have hopen : ∀ bs, opening g (Ascii.openParen :: bs) = some (.group, bs) := fun _ => rfl
  simp only [searchKey, List.cons_append, List.append_assoc, List.nil_append]
  refine read_of_group (hopen _) (Nat.lt_succ_self _) ?_
  cases h with
  | nil =>
    have all : ReadsAs g (utf8 "ALL") .all := readsAs_alone (by decide) rfl
    exact readAll_last (all _ (delimited_closeParen rest))
  | cons hread htail => exact readAll_items (.cons hread htail) (List.cons_ne_nil _ _) rest

end ImapSearch.SearchKey
