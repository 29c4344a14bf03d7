import ImapSearch.Proofs.Response.FirstToken
import ImapSearch.Proofs.Response.RoundTrip

/-!
# ImapSearch.Proofs.Response.SearchLine

**The lines of plain results.** A `SearchLine` is a plain result in the grammar of the
protocol: the keyword in any case, numbers with or without zeros in front, one space in
front of each, and at most one more space at the end. The parser gives the numbers of a
`SearchLine` where such a line begins the input and the line ends behind it, and nowhere
else (`Response.parse_search_iff`).

Whether the line ends is judged by the next byte, which has to be a carriage return if
there is one (`Scan.AtLineEnd`). So what stands behind a carriage return that no line
feed follows is not looked at. Where there is none, the input is a `SearchLine` as a
whole, with or without a line terminator.

That a line is read is one more case of `Scan.gives_spaced_before`. The other direction
takes the scans apart one by one: what each of them read is what it is said to read
(`Scan.exists_numberText`, `Scan.exists_bodyBytes`, `Scan.of_untagged_search`).
-/

namespace ImapSearch

/-! ### The grammar -/

/-- A number of 32 bits as a server writes it, with or without zeros in front. -/
structure NumberText where
  digits : Bytes
  ne_nil : digits ≠ []
  isDigit : ∀ d ∈ digits, Ascii.isDigit d
  lt : Decimal.value digits < 2 ^ 32

/-- The number that is written. -/
def NumberText.value (n : NumberText) : Nat := Decimal.value n.digits

/-- A plain result as a server writes it. -/
structure SearchLine where
  keyword : Spelling (utf8 "SEARCH")
  nums : List NumberText
  /-- Whether a space stands at the end. -/
  trailingSpace : Bool

namespace SearchLine

/-- The bytes behind the keyword. -/
def bodyBytes (nums : List NumberText) (trailingSpace : Bool) : Bytes :=
  (nums.flatMap fun n => Ascii.space :: n.digits) ++ if trailingSpace then [Ascii.space] else []

/-- The bytes of the line, without the line terminator. -/
def bytes (line : SearchLine) : Bytes :=
  ResponseForm.untaggedBytes line.keyword.bytes (bodyBytes line.nums line.trailingSpace)

/-- The numbers of the line. -/
def values (line : SearchLine) : List Nat := line.nums.map NumberText.value

end SearchLine

/-! ### Lines that are read -/

/-- The digits of a number are a word. -/
def NumberText.word (n : NumberText) : Word where
  bytes := n.digits
  ne_nil := n.ne_nil
  isAtom := fun d hd => isAtomByte_of_isDigit (n.isDigit d hd)

theorem NumberText.wordToken?_digits (n : NumberText) :
    wordToken? n.digits = some (.number n.value) := by
  have hread : Decimal.decodeBelow? numberBound n.digits = some n.value :=
    Decimal.decodeBelow?_eq_some_iff.mpr ⟨n.ne_nil, n.isDigit, rfl, n.lt⟩
  rw [wordToken?_of_isDigit n.isDigit, hread, Option.map_some]

namespace Scan

open SearchLine (bodyBytes)

/-- Reads numbers, each with a space in front of it. -/
def spacedNumbers : Scan (List Nat) := spaced numberUnlessLineEnds forward_numberUnlessLineEnds

/-- A space in front of the end of the line is read over. -/
theorem gives_spacedNumbers_end (trailingSpace : Bool) :
    spacedNumbers.Gives AtLineEnd (if trailingSpace then [Ascii.space] else []) (some []) := by
  cases trailingSpace with
  | false => exact fun _ rest hrest => spaced_of_not_space hrest.head?_ne_space
  | true =>
    intro pos rest hrest
    have hends : (⟨pos + 1, rest⟩ : Cursor).atLineEnd := atLineEnd_iff.mpr hrest
    have hnone : numberUnlessLineEnds ⟨pos + 1, rest⟩ = .ok none ⟨pos + 1, rest⟩ := by
      rw [numberUnlessLineEnds, bind_apply, lineEnds, hends]
      rfl
    show spaced _ _ ⟨pos, Ascii.space :: rest⟩ = _
    rw [spaced_space, bind_apply, hnone]
    rfl

/-- The numbers of a plain result are read up to the end of the line. -/
theorem gives_searchNums_bodyBytes (nums : List NumberText) (trailingSpace : Bool) :
    searchNums.Gives AtLineEnd (bodyBytes nums trailingSpace)
      (some (nums.map NumberText.value)) := by
  have hend : ∀ rest, AtLineEnd rest →
      EndsWord ((if trailingSpace then [Ascii.space] else []) ++ rest) := by
    intro rest hrest
    cases trailingSpace with
    | false => exact hrest.endsWord
    | true => exact endsWord_cons (by decide) rest
  have hnums : spacedNumbers.Gives AtLineEnd (bodyBytes nums trailingSpace)
      (some (nums.map NumberText.value)) :=
    gives_spaced_before
      (fun n : NumberText => gives_numberUnlessLineEnds (w := n.word) n.wordToken?_digits)
      (fun _ => endsWord_cons (by decide) _) hend (gives_spacedNumbers_end trailingSpace) nums
  exact hnums.finish ((gives_expectLineEnd "SEARCH").finish (gives_pure _))

end Scan

/-- A plain result is read where the line ends behind it. -/
theorem SearchLine.parse_append (line : SearchLine) {rest : Bytes} (h : Scan.AtLineEnd rest) :
    Response.parse (line.bytes ++ rest) = .ok (.untagged (.search line.values)) := by
  have hbody := (Scan.gives_searchNums_bodyBytes line.nums line.trailingSpace).map Untagged.search
  rw [← Scan.untaggedBody_search] at hbody
  refine Response.parse_of_gives (Scan.gives_untagged searchAtom line.keyword hbody ?_) h
  intro rest hrest
  rw [bodyBytes, List.append_assoc]
  cases line.nums with
  | nil =>
    cases line.trailingSpace with
    | false => exact hrest.endsWord
    | true => exact endsWord_cons (by decide) rest
  | cons n nums => exact endsWord_cons (by decide) _

/-! ### What a scan has read -/

namespace Scan

open SearchLine (bodyBytes)

/-- A number was read from its digits. -/
theorem exists_numberText {c d : Cursor} {n : Nat} (h : number c = .ok n d) :
    ∃ text : NumberText, text.value = n ∧ c.rest = text.digits ++ d.rest := by
  obtain ⟨t, d', htoken, h⟩ := exists_of_bind h
  split at h
  next m =>
    cases h
    obtain ⟨digits, hread, hrest⟩ := of_token_number htoken
    obtain ⟨hne, hdigits, hvalue, hlt⟩ := Decimal.decodeBelow?_eq_some_iff.mp hread
    exact ⟨⟨digits, hne, hdigits, hvalue ▸ hlt⟩, hvalue, hrest⟩
  next => cases h

/-- Either the line ended, and nothing was read, or a number was read. -/
theorem of_numberUnlessLineEnds {c d : Cursor} {found : Option Nat}
    (h : numberUnlessLineEnds c = .ok found d) :
    (found = none ∧ d = c) ∨
      ∃ text : NumberText, found = some text.value ∧ c.rest = text.digits ++ d.rest := by
  obtain ⟨ends, d', hends, h⟩ := exists_of_bind h
  cases hends
  split at h
  next =>
    cases h
    exact .inl ⟨rfl, rfl⟩
  next =>
    obtain ⟨n, hn, rfl⟩ := exists_of_map h
    obtain ⟨text, rfl, hrest⟩ := exists_numberText hn
    exact .inr ⟨text, rfl, hrest⟩

/-- What was read as numbers with spaces in front is made of them, and of one more space if the
line ended behind it. -/
theorem exists_bodyBytes {c d : Cursor} {nums : List Nat} (h : spacedNumbers c = .ok nums d) :
    ∃ (texts : List NumberText) (trailingSpace : Bool), texts.map NumberText.value = nums ∧
      c.rest = bodyBytes texts trailingSpace ++ d.rest := by
  unfold spacedNumbers at h
  fun_induction spaced numberUnlessLineEnds forward_numberUnlessLineEnds c generalizing nums d with
  | case1 c hc =>
    cases h
    exact ⟨[], false, rfl, rfl⟩
  | case2 => cases h
  | case3 c rest d' hitem hc =>
    cases h
    obtain ⟨-, rfl⟩ | ⟨text, hsome, -⟩ := of_numberUnlessLineEnds hitem
    · refine ⟨[], true, rfl, ?_⟩
      rw [Cursor.skip, hc]
      rfl
    · cases hsome
  | case4 c rest n d' hitem nums' f hnums hc ih =>
    cases h
    obtain ⟨hnone, -⟩ | ⟨text, hsome, hrest⟩ := of_numberUnlessLineEnds hitem
    · cases hnone
    · cases hsome
      obtain ⟨texts, trailingSpace, rfl, hbody⟩ := ih hnums
      refine ⟨text :: texts, trailingSpace, rfl, ?_⟩
      rw [Cursor.skip, hc] at hrest
      have hrest : rest = text.digits ++ d'.rest := hrest
      rw [hc, hrest, hbody]
      simp [bodyBytes]
  | case5 => cases h
  | case6 c b rest hc hb =>
    cases h
    exact ⟨[], false, rfl, rfl⟩

theorem of_expectLineEnd {keyword : String} {c d : Cursor} {u : Unit}
    (h : expectLineEnd keyword c = .ok u d) : d = c ∧ AtLineEnd c.rest := by
  obtain ⟨ends, d', hends, h⟩ := exists_of_bind h
  cases hends
  split at h
  next hline =>
    cases h
    exact ⟨rfl, atLineEnd_iff.mp hline⟩
  next => cases h

theorem of_searchNums {c d : Cursor} {nums : List Nat} (h : searchNums c = .ok nums d) :
    AtLineEnd d.rest ∧ ∃ (texts : List NumberText) (trailingSpace : Bool),
      texts.map NumberText.value = nums ∧ c.rest = bodyBytes texts trailingSpace ++ d.rest := by
  obtain ⟨found, e, hnums, hbody⟩ := exists_of_bind h
  obtain ⟨u, f, hend, hpure⟩ := exists_of_bind hbody
  obtain ⟨rfl, hends⟩ := of_expectLineEnd hend
  cases hpure
  exact ⟨hends, exists_bodyBytes hnums⟩

/-- Only behind the keyword `SEARCH` is a plain result read. -/
theorem of_untaggedBody_search {keyword : Bytes} {c d : Cursor} {nums : List Nat}
    (h : untaggedBody keyword c = .ok (.search nums) d) :
    keyword = utf8 "SEARCH" ∧ searchNums c = .ok nums d := by
  rw [untaggedBody] at h
  cases hstatus : Status.ofWord? keyword with
  | some status =>
    rw [hstatus] at h
    obtain ⟨text, -, hdata⟩ := exists_of_map h
    cases hdata
  | none =>
    rw [hstatus] at h
    dsimp only at h
    by_cases hcapability : keyword = utf8 "CAPABILITY"
    · rw [if_pos hcapability] at h
      obtain ⟨caps, -, hdata⟩ := exists_of_map h
      cases hdata
    rw [if_neg hcapability] at h
    by_cases hsearch : keyword = utf8 "SEARCH"
    · rw [if_pos hsearch] at h
      obtain ⟨found, hnums, hdata⟩ := exists_of_map h
      cases hdata
      exact ⟨hsearch, hnums⟩
    rw [if_neg hsearch] at h
    by_cases hextended : keyword = utf8 "ESEARCH"
    · rw [if_pos hextended] at h
      obtain ⟨tag, data, hdata, -⟩ := ensures_extendedSearch (P := fun _ => True)
        (Q := fun _ => True) (fun _ _ _ _ => trivial) (fun _ _ _ _ _ => trivial)
        (fun _ => trivial) h
      cases hdata
    · rw [if_neg hextended] at h
      obtain ⟨line, -, hdata⟩ := exists_of_map h
      cases hdata

/-- An untagged response that is a plain result has the keyword `SEARCH`, in any case. -/
theorem of_untagged_search {c d : Cursor} {nums : List Nat}
    (h : untagged c = .ok (.search nums) d) :
    ∃ (word : Spelling (utf8 "SEARCH")) (e : Cursor),
      c.rest = Ascii.space :: (word.bytes ++ e.rest) ∧ searchNums e = .ok nums d := by
  obtain ⟨u, d', hspace, h⟩ := exists_of_bind h
  obtain ⟨t, e, htoken, h⟩ := exists_of_bind h
  have hspace := rest_of_expectSpace hspace
  split at h
  next name =>
    obtain ⟨b, rest, -, -, -, -, -, hrest⟩ := of_token_atom htoken
    obtain ⟨hkeyword, hnums⟩ := of_untaggedBody_search h
    refine ⟨⟨name, hkeyword⟩, e, ?_, hnums⟩
    rw [hspace, hrest]
  next n =>
    obtain ⟨u, f, -, h⟩ := exists_of_bind h
    obtain ⟨name, g, -, h⟩ := exists_of_bind h
    obtain ⟨line, -, hdata⟩ := exists_of_map h
    cases hdata
  next => cases h

end Scan

/-! ### The responses that are plain results -/

/-- No carriage return stands in a line. -/
theorem SearchLine.cr_notMem_bytes (line : SearchLine) : Ascii.cr ∉ line.bytes := by
  have hkeyword : Ascii.cr ∉ line.keyword.bytes := by
    intro hcr
    have hupper : Ascii.upper Ascii.cr ∈ upperCase line.keyword.bytes := List.mem_map_of_mem hcr
    rw [line.keyword.isKeyword] at hupper
    exact absurd hupper (by decide +kernel)
  have hnums : Ascii.cr ∉ line.nums.flatMap fun n => Ascii.space :: n.digits := by
    intro hcr
    obtain ⟨n, -, hcr⟩ := List.mem_flatMap.mp hcr
    rcases List.mem_cons.mp hcr with hcr | hcr
    · exact absurd hcr (by decide)
    · exact absurd (n.isDigit _ hcr) (by decide)
  have hspace : Ascii.cr ∉ if line.trailingSpace then [Ascii.space] else [] := by
    cases line.trailingSpace <;> decide
  have hstar : Ascii.cr ≠ Ascii.star ∧ Ascii.cr ≠ Ascii.space := by decide
  simp only [bytes, ResponseForm.untaggedBytes, bodyBytes, List.mem_cons, List.mem_append, not_or]
  exact ⟨hstar.1, hstar.2, hkeyword, hnums, hspace⟩

/-- Bytes without a carriage return are all that stands in front of the end of the line. -/
theorem Scan.AtLineEnd.eq_of_append_eq {bs cs rest more : Bytes} (hrest : AtLineEnd rest)
    (hmore : AtLineEnd more) (hbs : Ascii.cr ∉ bs) (hcs : Ascii.cr ∉ cs)
    (h : bs ++ rest = cs ++ more) : bs = cs := by
  have hsplit : ∀ {line tail : Bytes}, Ascii.cr ∉ line → AtLineEnd tail →
      (line ++ tail).span (· ≠ Ascii.cr) = (line, tail) := by
    intro line tail hline htail
    refine span_append (by simpa using fun b hb => ne_of_mem_of_not_mem hb hline) ?_
    intro b hb
    rcases htail with htail | htail <;> rw [htail] at hb <;> cases hb
    decide
  have heq := hsplit hbs hrest
  rw [h, hsplit hcs hmore] at heq
  exact (congrArg Prod.fst heq).symm

namespace Response

/-- Only a line in the grammar is read as a plain result, and only where the line ends behind
it. -/
theorem exists_searchLine {input : Bytes} {nums : List Nat}
    (h : parse input = .ok (.untagged (.search nums))) :
    ∃ (line : SearchLine) (rest : Bytes), line.values = nums ∧ input = line.bytes ++ rest ∧
      Scan.AtLineEnd rest := by
  obtain ⟨d, data, e, htoken, hbody, hdata⟩ | ⟨text, htext⟩ | ⟨name, d, status, text, -, htagged⟩ :=
    cases_of_parse h
  · cases hdata
    obtain ⟨rest, hinput, rfl⟩ := Scan.of_token_untagged htoken
    have hinput : input = Ascii.star :: rest := hinput
    subst hinput
    obtain ⟨word, c, hword, hnums⟩ := Scan.of_untagged_search hbody
    obtain ⟨hends, texts, trailingSpace, hvalues, hrest⟩ := Scan.of_searchNums hnums
    refine ⟨⟨word, texts, trailingSpace⟩, e.rest, hvalues, ?_, hends⟩
    have hword : rest = Ascii.space :: (word.bytes ++ c.rest) := hword
    rw [hword, hrest]
    simp [SearchLine.bytes, ResponseForm.untaggedBytes]
  · cases htext
  · cases htagged

/-- A plain result is read from the lines in the grammar that end where they do, and from nothing
else. The line ends at the end of the input or at a carriage return, whatever stands behind that.
So an input without a carriage return, or with one in its line terminator alone, is read as a plain
result if it is a line in the grammar as a whole, and only then. -/
theorem parse_search_iff (input : Bytes) (nums : List Nat) :
    (parse input = .ok (.untagged (.search nums)) ↔
      ∃ (line : SearchLine) (rest : Bytes), line.values = nums ∧ input = line.bytes ++ rest ∧
        Scan.AtLineEnd rest) ∧
    ∀ content terminator, input = content ++ terminator → terminator = [] ∨ terminator = crlf →
      Ascii.cr ∉ content →
      (parse input = .ok (.untagged (.search nums)) ↔
        ∃ line : SearchLine, line.values = nums ∧ content = line.bytes) := by
  have hread : parse input = .ok (.untagged (.search nums)) ↔
      ∃ (line : SearchLine) (rest : Bytes), line.values = nums ∧ input = line.bytes ++ rest ∧
        Scan.AtLineEnd rest := by
    constructor
    · exact exists_searchLine
    · intro h
      obtain ⟨line, rest, rfl, rfl, hrest⟩ := h
      exact line.parse_append hrest
  refine ⟨hread, fun content terminator hinput hterminator hcr => ?_⟩
  have hends : Scan.AtLineEnd terminator := by
    rcases hterminator with rfl | rfl
    · exact .inl rfl
    · exact .inr rfl
  rw [hread]
  constructor
  · intro h
    obtain ⟨line, rest, hvalues, hline, hrest⟩ := h
    exact ⟨line, hvalues, Scan.AtLineEnd.eq_of_append_eq hends hrest hcr line.cr_notMem_bytes
      (hinput.symm.trans hline)⟩
  · intro h
    obtain ⟨line, hvalues, hcontent⟩ := h
    exact ⟨line, terminator, hvalues, hcontent ▸ hinput, hends⟩

/-- A line with a keyword in lower case, zeros in front of a number, and a space at the end. -/
def looseLine : SearchLine where
  keyword := ⟨utf8 "search", by decide +kernel⟩
  nums := [⟨utf8 "007", by decide +kernel, by decide +kernel, by decide +kernel⟩,
    ⟨utf8 "4294967295", by decide +kernel, by decide +kernel, by decide +kernel⟩]
  trailingSpace := true

/-- The line is read as a whole, and cut short at a carriage return by itself. -/
theorem parse_search_iff_looseLine :
    parse (utf8 "* search 007 4294967295 \r\n") = .ok (.untagged (.search [7, 4294967295])) ∧
    parse (utf8 "* search 007 4294967295 \r 2\r\n") =
      .ok (.untagged (.search [7, 4294967295])) := by
  have hvalues : looseLine.values = [7, 4294967295] := by decide +kernel
  have hwhole := (parse_search_iff (utf8 "* search 007 4294967295 \r\n") [7, 4294967295]).2
    looseLine.bytes crlf (by decide +kernel) (.inr rfl) (by decide +kernel)
  have hcut := (parse_search_iff (utf8 "* search 007 4294967295 \r 2\r\n") [7, 4294967295]).1
  exact ⟨hwhole.mpr ⟨looseLine, hvalues, rfl⟩,
    hcut.mpr ⟨looseLine, utf8 "\r 2\r\n", hvalues, by decide +kernel, .inr (by decide +kernel)⟩⟩

end Response

end ImapSearch
