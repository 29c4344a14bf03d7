import ImapSearch.Proofs.Scan.Ensures

/-!
# ImapSearch.Proofs.Response.FirstToken

**What a response begins with.** The first token of the input decides what kind of
response it is (`Response.cases_of_parse`). A tagged response begins with an atom, which
is its tag: a run of atom characters of which the first is no punctuation, and not all
of which are digits (`Response.of_parse_tagged`). An untagged response begins with an
asterisk and a space (`Response.of_parse_untagged`).
-/

namespace ImapSearch

namespace Scan

/-- A run of atom characters is read as a whole. It is a number, `NIL`, or an atom as it
stands. -/
theorem of_word {c d : Cursor} {t : Token} (h : word c = .ok t d) :
    c.rest = c.rest.takeWhile isAtomByte ++ d.rest ∧
      ((∃ n, Decimal.decodeBelow? numberBound (c.rest.takeWhile isAtomByte) = some n ∧
          t = .number n) ∨
        ¬ (c.rest.takeWhile isAtomByte).all Ascii.isDigit ∧
          (t = .nil ∨ t = .atom (c.rest.takeWhile isAtomByte))) := by
  have hskip : c.rest = c.rest.takeWhile isAtomByte ++
      (c.skip (c.rest.takeWhile isAtomByte).length).rest :=
    (List.prefix_iff_eq_append.mp (List.takeWhile_prefix isAtomByte)).symm
  rw [word, bind_apply] at h
  dsimp only [takeWhile] at h
  split at h
  · cases hn : Decimal.decodeBelow? numberBound (c.rest.takeWhile isAtomByte) with
    | none =>
      rw [hn] at h
      cases h
    | some n =>
      rw [hn] at h
      cases h
      exact ⟨hskip, .inl ⟨n, rfl, rfl⟩⟩
  next hdigits =>
    split at h
    · cases h
      exact ⟨hskip, .inr ⟨hdigits, .inl rfl⟩⟩
    · cases h
      exact ⟨hskip, .inr ⟨hdigits, .inr rfl⟩⟩

/-- Only a run of digits gives a number. -/
theorem of_token_number {c d : Cursor} {n : Nat} (h : token c = .ok (.number n) d) :
    ∃ digits, Decimal.decodeBelow? numberBound digits = some n ∧ c.rest = digits ++ d.rest := by
  obtain ⟨b, rest, -, hb, -⟩ | ⟨b, rest, -, -, -, hword⟩ | hkind := of_token h
  · grind [punctuation?]
  · obtain ⟨hrest, ⟨m, hm, hnumber⟩ | ⟨-, hnil | hname⟩⟩ := of_word hword
    · cases hnumber
      exact ⟨_, hm, hrest⟩
    · cases hnil
    · cases hname
  · simp [Token.kind] at hkind

/-- Only a run of atom characters gives an atom. -/
theorem of_token_atom {c d : Cursor} {name : Bytes} (h : token c = .ok (.atom name) d) :
    ∃ b rest, c.rest = b :: rest ∧ isAtomByte b ∧ punctuation? b = none ∧
      name = c.rest.takeWhile isAtomByte ∧ ¬ name.all Ascii.isDigit ∧ c.rest = name ++ d.rest := by
  obtain ⟨b, rest, -, hb, -⟩ | ⟨b, rest, hc, hatom, hb, hword⟩ | hkind := of_token h
  · grind [punctuation?]
  · refine ⟨b, rest, hc, hatom, hb, ?_⟩
    obtain ⟨hrest, ⟨n, -, hnumber⟩ | ⟨hdigits, hnil | hname⟩⟩ := of_word hword
    · cases hnumber
    · cases hnil
    · cases hname
      exact ⟨rfl, hdigits, hrest⟩
  · simp [Token.kind] at hkind

/-- Only an asterisk gives the token that opens an untagged response. -/
theorem of_token_untagged {c d : Cursor} (h : token c = .ok .untagged d) :
    ∃ rest, c.rest = Ascii.star :: rest ∧ d = c.skip 1 := by
  obtain ⟨b, rest, hc, hb, hd⟩ | ⟨b, rest, -, -, -, hword⟩ | hkind := of_token h
  · obtain rfl : b = Ascii.star := by grind [punctuation?]
    exact ⟨rest, hc, hd⟩
  · obtain ⟨-, ⟨n, -, hnumber⟩ | ⟨-, hnil | hname⟩⟩ := of_word hword
    · cases hnumber
    · cases hnil
    · cases hname
  · simp [Token.kind] at hkind

theorem rest_of_expectSpace {c d : Cursor} {u : Unit} (h : expectSpace c = .ok u d) :
    c.rest = Ascii.space :: d.rest := by
  obtain ⟨found, d', hfound, h⟩ := exists_of_bind h
  rw [space, eat] at hfound
  split at hfound
  next hspace =>
    cases hfound
    obtain ⟨rest, hrest⟩ := List.head?_eq_some_iff.mp hspace
    cases h
    rw [Cursor.skip, hrest]
    rfl
  next =>
    cases hfound
    cases h

end Scan

namespace Response

/-- The first token decides what a response is. -/
theorem cases_of_parse {input : Bytes} {r : Response} (h : parse input = .ok r) :
    (∃ d data e, Scan.token (Cursor.start input) = .ok .untagged d ∧
        Scan.untagged d = .ok data e ∧ r = .untagged data) ∨
      (∃ text, r = .continuation text) ∨
      ∃ name d status text, Scan.token (Cursor.start input) = .ok (.atom name) d ∧
        r = .tagged ⟨asciiText name⟩ status text := by
  unfold parse at h
  split at h
  next r' e hresponse =>
    cases h
    obtain ⟨t, d, htoken, hresponse⟩ := Scan.exists_of_bind hresponse
    split at hresponse
    next =>
      obtain ⟨data, hbody, rfl⟩ := Scan.exists_of_map hresponse
      exact .inl ⟨d, data, e, htoken, hbody, rfl⟩
    next =>
      have hcontinuation : Scan.continuation.Ensures fun r => ∃ text, r = .continuation text :=
        Scan.Ensures.map fun _ _ _ _ => ⟨_, rfl⟩
      exact .inr (.inl (hcontinuation hresponse))
    next name =>
      have htagged : (Scan.tagged ⟨asciiText name⟩).Ensures
          fun r => ∃ status text, r = .tagged ⟨asciiText name⟩ status text :=
        Scan.ensures_bind fun _ => Scan.ensures_bind fun _ => Scan.ensures_bind fun _ =>
          Scan.ensures_pure ⟨_, _, rfl⟩
      obtain ⟨status, text, hr⟩ := htagged hresponse
      exact .inr (.inr ⟨name, d, status, text, htoken, hr⟩)
    next => cases hresponse
  next => cases h

/-- The tag of a tagged response is the run of atom characters at its beginning. -/
theorem of_parse_tagged {input : Bytes} {tag : Tag} {status : Status} {text : String}
    (h : parse input = .ok (.tagged tag status text)) :
    ∃ b rest, input = b :: rest ∧ isAtomByte b ∧ punctuation? b = none ∧
      tag = ⟨asciiText (input.takeWhile isAtomByte)⟩ ∧
      ¬ (input.takeWhile isAtomByte).all Ascii.isDigit := by
  obtain ⟨d, data, e, -, -, hr⟩ | ⟨text, hr⟩ | ⟨name, d, status, text, htoken, hr⟩ :=
    cases_of_parse h
  · cases hr
  · cases hr
  · cases hr
    obtain ⟨b, rest, hinput, hatom, hb, hname, hdigits, -⟩ := Scan.of_token_atom htoken
    subst hname
    exact ⟨b, rest, hinput, hatom, hb, rfl, hdigits⟩

/-- An untagged response begins with an asterisk and a space. -/
theorem of_parse_untagged {input : Bytes} {data : Untagged}
    (h : parse input = .ok (.untagged data)) :
    ∃ rest, input = Ascii.star :: Ascii.space :: rest := by
  obtain ⟨d, data, e, htoken, hbody, hr⟩ | ⟨text, hr⟩ | ⟨name, d, status, text, -, hr⟩ :=
    cases_of_parse h
  · obtain ⟨rest, hinput, rfl⟩ := Scan.of_token_untagged htoken
    have hinput : input = Ascii.star :: rest := hinput
    subst hinput
    obtain ⟨u, d, hspace, -⟩ := Scan.exists_of_bind hbody
    have hrest : rest = Ascii.space :: d.rest := Scan.rest_of_expectSpace hspace
    exact ⟨d.rest, by rw [hrest]⟩
  · cases hr
  · cases hr

end Response

end ImapSearch
