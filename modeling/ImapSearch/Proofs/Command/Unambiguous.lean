import ImapSearch.Command
import ImapSearch.Proofs.SearchKey.Normalize
import ImapSearch.Proofs.SearchKey.RoundTrip

/-!
# ImapSearch.Proofs.Command.Unambiguous

**Different searches have different bytes.** A reader of the grammar takes the key
of criteria off the front of the bytes and leaves what follows, so the bytes say
where they end; and the key says what the criteria are, up to the case of some names
of header fields. The grammar here is the one that the encoder writes in
(`Grammar.wire`): a keyword is a word of a response, the backslash included, and a
year may have a sign and more than four digits.

In front of the key a command has its tag, its words and the parts of the result that
it asks for. Each of them ends at a byte that it does not hold.
-/

namespace ImapSearch

/-! ### Criteria -/

/-- The grammar that criteria are written in: keywords as a response has them, and all years. -/
def Grammar.wire : Grammar := { nameByte := isAtomByte, longYears := true }

/-- Conditions with sets that the operations on sets build and with keywords that are words. -/
structure Conditions.WellFormed (c : Conditions) : Prop where
  seqNums : c.seqNums.Reachable
  uids : c.uids.Reachable
  keywords : c.EveryKeyword fun name => utf8 name ≠ [] ∧ ∀ b ∈ utf8 name, isAtomByte b

theorem Conditions.WellFormed.legible {c : Conditions} (h : c.WellFormed) : c.Legible .wire :=
  ⟨h.seqNums, h.uids, fun _ _ => .inl rfl, h.keywords⟩

/-- Criteria are told from the front of the bytes, and so is what follows them. -/
theorem Criteria.encode_append_inj {c d : Criteria} (hc : c.Every Conditions.WellFormed)
    (hd : d.Every Conditions.WellFormed) {rest rest' : Bytes} :
    c.encode ++ rest = d.encode ++ rest' ↔ c.normalize = d.normalize ∧ rest = rest' := by
  constructor
  · intro h
    have hread := read_encode (hc.mono fun _ h => h.legible) rest
    rw [h, read_encode (hd.mono fun _ h => h.legible), Option.some.injEq, Prod.mk.injEq] at hread
    exact ⟨normalize_eq_of_key hread.1.symm, hread.2.symm⟩
  · rintro ⟨h, rfl⟩
    rw [← c.encode_normalize, h, d.encode_normalize]

theorem Criteria.exists_encode_eq_cons (c : Criteria) :
    ∃ inner, c.encode = Ascii.openParen :: inner := by
  obtain ⟨conditions, excluded, alternatives⟩ := c
  exact ⟨_, rfl⟩

/-! ### Commands -/

/-- Bytes up to the first occurrence of a byte. -/
theorem append_cons_inj {b : UInt8} {as bs rest rest' : Bytes} (ha : b ∉ as) (hb : b ∉ bs)
    (h : as ++ b :: rest = bs ++ b :: rest') : as = bs ∧ rest = rest' := by
  have hspan : ∀ {cs : Bytes}, b ∉ cs → ∀ tail : Bytes,
      (cs ++ b :: tail).span (· ≠ b) = (cs, b :: tail) := by
    intro cs hcs tail
    refine span_append (fun c hc => ?_) (by simp)
    exact decide_eq_true (ne_of_mem_of_not_mem hc hcs)
  have hparts := hspan ha rest
  rw [h, hspan hb rest', Prod.mk.injEq, List.cons.injEq] at hparts
  exact ⟨hparts.1.symm, hparts.2.2.symm⟩

theorem space_mem_utf8_iff {s : String} : Ascii.space ∈ utf8 s ↔ ' ' ∈ s.toList := by
  rw [utf8_eq_flatMap, List.mem_flatMap]
  constructor
  · rintro ⟨c, hc, hb⟩
    rcases utf8EncodeChar_cases c with ⟨hlt, hbytes⟩ | ⟨-, hbytes⟩
    · rw [hbytes, List.mem_singleton] at hb
      have hnat : 32 = c.toNat % 256 := congrArg UInt8.toNat hb
      have hchar : c = Char.ofNat 32 := by
        rw [hnat, Nat.mod_eq_of_lt (by omega), Char.ofNat_toNat]
      exact hchar ▸ hc
    · exact absurd (hbytes _ hb) (by decide)
  · intro h
    exact ⟨' ', h, by decide⟩

theorem ReturnOption.name_inj {o o' : ReturnOption} (h : utf8 o.name = utf8 o'.name) : o = o' := by
  cases o <;> cases o' <;> first | rfl | exact absurd h (by decide)

namespace Command

/-- The kind of the search is told from its words, whatever stands behind them. -/
theorem kindName_append_inj {kind kind' : SearchKind} {rest rest' : Bytes}
    (h : utf8 kind.name ++ rest = utf8 kind'.name ++ rest') : kind = kind' ∧ rest = rest' := by
  have first : ∀ {bs bs' : Bytes},
      utf8 SearchKind.search.name ++ bs ≠ utf8 SearchKind.uidSearch.name ++ bs' := by
    intro bs bs' heq
    exact absurd (List.cons.inj heq).1 (by decide)
  cases kind <;> cases kind'
  case search.search | uidSearch.uidSearch => exact ⟨rfl, List.append_cancel_left h⟩
  case search.uidSearch => exact absurd h first
  case uidSearch.search => exact absurd h.symm first

/-- The words for the parts of the result, with spaces between them. -/
theorem optionWords_inj {options options' : List ReturnOption} (hne : options ≠ [])
    (hne' : options' ≠ [])
    (h : [Ascii.space].intercalate (options.map fun o => utf8 o.name)
      = [Ascii.space].intercalate (options'.map fun o => utf8 o.name)) : options = options' := by
  have hwords : ∀ {os : List ReturnOption}, os ≠ [] →
      ([Ascii.space].intercalate (os.map fun o => utf8 o.name)).splitOn Ascii.space
        = os.map fun o => utf8 o.name := by
    intro os hos
    refine List.splitOn_intercalate _ ?_ (by simpa using hos)
    rw [List.forall_mem_map]
    intro o _
    cases o <;> decide
  have hmap := congrArg (List.splitOn Ascii.space) h
  rw [hwords hne, hwords hne'] at hmap
  exact List.map_injective_iff.mpr (fun _ _ => ReturnOption.name_inj) hmap

/-- The request starts with its word, and its words end at the parenthesis. -/
theorem returnClause_append {options : List ReturnOption} (hne : options ≠ []) (rest : Bytes) :
    returnClause options ++ rest = utf8 " RETURN (" ++
      ([Ascii.space].intercalate (options.map fun o => utf8 o.name) ++
        Ascii.closeParen :: rest) := by
  rw [returnClause, if_neg hne]
  simp only [List.append_assoc, List.singleton_append]

theorem closeParen_notMem_optionWords (options : List ReturnOption) :
    Ascii.closeParen ∉ [Ascii.space].intercalate (options.map fun o => utf8 o.name) := by
  intro h
  rcases mem_intercalate_singleton h with h | ⟨word, hword, h⟩
  · exact absurd h (by decide)
  · obtain ⟨o, -, rfl⟩ := List.mem_map.mp hword
    cases o <;> exact absurd h (by decide)

/-- The parts of the result are told from what stands in front of the criteria. -/
theorem returnClause_append_inj {options options' : List ReturnOption} {key key' : Bytes}
    (h : returnClause options ++ Ascii.space :: Ascii.openParen :: key
      = returnClause options' ++ Ascii.space :: Ascii.openParen :: key') :
    options = options' ∧ key = key' := by
  -- Behind the first space there is a parenthesis or the first letter of a word.
  have clash : ∀ {os : List ReturnOption} {tail inner : Bytes}, os ≠ [] →
      returnClause os ++ tail ≠ Ascii.space :: Ascii.openParen :: inner := by
    intro os tail inner hne heq
    rw [returnClause_append hne] at heq
    exact absurd (List.cons.inj (List.cons.inj heq).2).1 (by decide)
  by_cases hne : options = [] <;> by_cases hne' : options' = []
  · subst hne hne'
    simpa [returnClause] using h
  · subst hne
    exact absurd h.symm (clash hne')
  · subst hne'
    exact absurd h (clash hne)
  · rw [returnClause_append hne, returnClause_append hne', List.append_cancel_left_eq] at h
    obtain ⟨hwords, hrest⟩ := append_cons_inj (closeParen_notMem_optionWords options)
      (closeParen_notMem_optionWords options') h
    exact ⟨optionWords_inj hne hne' hwords, (List.cons.inj (List.cons.inj hrest).2).2⟩

/-- A command is told from its bytes, up to the case of some names of header fields. -/
theorem encode_inj {c d : Command} {tag tag' : Tag}
    (hc : c.criteria.Every Conditions.WellFormed) (hd : d.criteria.Every Conditions.WellFormed)
    (ht : ' ' ∉ tag.text.toList) (ht' : ' ' ∉ tag'.text.toList) :
    c.encode tag = d.encode tag' ↔ tag = tag' ∧ c.kind = d.kind ∧ c.options = d.options ∧
      c.criteria.normalize = d.criteria.normalize := by
  constructor
  · intro h
    simp only [encode, List.append_assoc, List.cons_append] at h
    obtain ⟨htag, hwords⟩ := append_cons_inj (mt space_mem_utf8_iff.mp ht)
      (mt space_mem_utf8_iff.mp ht') h
    obtain ⟨hkind, hclause⟩ := kindName_append_inj hwords
    obtain ⟨inner, hinner⟩ := c.criteria.exists_encode_eq_cons
    obtain ⟨inner', hinner'⟩ := d.criteria.exists_encode_eq_cons
    rw [hinner, hinner', List.cons_append, List.cons_append] at hclause
    obtain ⟨hoptions, hkey⟩ := returnClause_append_inj hclause
    have hcriteria : c.criteria.encode ++ crlf = d.criteria.encode ++ crlf := by
      rw [hinner, hinner', List.cons_append, List.cons_append, hkey]
    refine ⟨?_, hkind, hoptions, ((Criteria.encode_append_inj hc hd).mp hcriteria).1⟩
    cases tag
    cases tag'
    exact congrArg Tag.mk (utf8_inj.mp htag)
  · rintro ⟨rfl, hkind, hoptions, hcriteria⟩
    rw [encode, encode, hkind, hoptions, ← c.criteria.encode_normalize, hcriteria,
      d.criteria.encode_normalize]

/-- The form of a search on the wire is unambiguous. The criteria are told from the front of any
bytes, with what follows them; and two commands under tags without spaces have the same bytes if
and only if they agree in everything but the case of some names of header fields. -/
theorem encode_unambiguous {c d : Command} (hc : c.criteria.Every Conditions.WellFormed)
    (hd : d.criteria.Every Conditions.WellFormed) :
    (∀ rest rest', c.criteria.encode ++ rest = d.criteria.encode ++ rest' ↔
      c.criteria.normalize = d.criteria.normalize ∧ rest = rest') ∧
    ∀ tag tag' : Tag, ' ' ∉ tag.text.toList → ' ' ∉ tag'.text.toList →
      (c.encode tag = d.encode tag' ↔ tag = tag' ∧ c.kind = d.kind ∧ c.options = d.options ∧
        c.criteria.normalize = d.criteria.normalize) :=
  ⟨fun _ _ => Criteria.encode_append_inj hc hd, fun _ _ => encode_inj hc hd⟩

/-- A search by UID for mail with a number of five or more and a text in a header field, but
without a keyword in that field. -/
def fieldSearch (name : String) : Command where
  criteria :=
    { conditions := { seqNums := .addRange {} 5 9, headers := [⟨name, "news"⟩] }
      excluded := [{ conditions := { headers := [⟨name, "old"⟩], flags := [.keyword "$Junk"] } }] }
  options := [.min, .count]
  kind := .uidSearch

theorem encode_unambiguous_fieldSearch :
    (fieldSearch "Subject").encode ⟨"A1"⟩ = (fieldSearch "SUBJECT").encode ⟨"A1"⟩ ∧
      (fieldSearch "Subject").encode ⟨"A1"⟩ ≠ (fieldSearch "Subjects").encode ⟨"A1"⟩ := by
  have wellFormed : ∀ name, (fieldSearch name).criteria.Every Conditions.WellFormed := by
    intro name
    refine ⟨⟨.addRange 5 9 .empty, .empty, fun _ h => absurd h (by simp)⟩, ⟨⟨⟨.empty, .empty, ?_⟩,
      trivial, trivial⟩, trivial⟩, trivial⟩
    intro keyword hkeyword
    obtain rfl : keyword = "$Junk" := by simpa using hkeyword
    exact ⟨by decide, List.all_eq_true.mp (by decide)⟩
  constructor
  · refine ((encode_unambiguous (wellFormed _) (wellFormed _)).2 ⟨"A1"⟩ ⟨"A1"⟩ (by decide)
      (by decide)).mpr ⟨rfl, rfl, rfl, ?_⟩
    exact Criteria.normalize_eq_of_key rfl
  · intro h
    have hnormalize := (((encode_unambiguous (wellFormed _) (wellFormed _)).2 ⟨"A1"⟩ ⟨"A1"⟩
      (by decide) (by decide)).mp h).2.2.2
    have hfield : HeaderField.normalize ⟨"Subject", "news"⟩
        = HeaderField.normalize ⟨"Subjects", "news"⟩ :=
      (List.cons.inj (congrArg (·.conditions.headers) hnormalize)).1
    have hkey : HeaderField.key ⟨"Subject", "news"⟩ = HeaderField.key ⟨"Subjects", "news"⟩ := by
      rw [HeaderField.key_eq, HeaderField.key_eq, hfield]
    exact absurd (SearchKey.header.inj hkey).1 (by decide)

end Command

end ImapSearch
