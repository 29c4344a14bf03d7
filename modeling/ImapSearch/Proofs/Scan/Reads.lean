import ImapSearch.Proofs.Decimal
import ImapSearch.Response.Parse
import ImapSearch.Text.Argument

/-!
# ImapSearch.Proofs.Scan.Reads

**Scans on bytes that are written out.** `Scan.Gives s P bs result` says what a scan
makes of the bytes `bs`, wherever they stand and whatever follows them, as long as it
has the property `P`: it reads exactly them and gives a value, or it fails. Both
compose (`Scan.Gives.bind`), so that a text is read part by part.

The parts are words, quoted strings and literals (`Scalar`). A word is a run of atom
characters, but not every word is a token: a bracket or a plus sign in front is one of
its own, and a run of digits may be too large a number (`wordToken?`).
-/

namespace ImapSearch

namespace Scan

variable {α β : Type} {P Q : Bytes → Prop}

/-! ### What a scan makes of bytes -/

/-- On these bytes, if what follows has the property, the scan gives a value and stops behind them,
or it fails. -/
def Gives (s : Scan α) (P : Bytes → Prop) (bs : Bytes) : Option α → Prop
  | some a => ∀ pos rest, P rest → s ⟨pos, bs ++ rest⟩ = .ok a ⟨pos + bs.length, rest⟩
  | none => ∀ pos rest, P rest → ∃ e d, s ⟨pos, bs ++ rest⟩ = .error e d

theorem gives_pure (a : α) : (pure a : Scan α).Gives P [] (some a) := fun _ _ _ => rfl

theorem gives_fail (fault : Fault) (bs : Bytes) : (fail fault : Scan α).Gives P bs none :=
  fun _ _ _ => ⟨_, _, rfl⟩

/-- Two scans that agree on the bytes make the same of them. -/
theorem Gives.congr {s t : Scan α} {bs : Bytes} {result : Option α} (h : s.Gives P bs result)
    (heq : ∀ pos rest, t ⟨pos, bs ++ rest⟩ = s ⟨pos, bs ++ rest⟩) : t.Gives P bs result := by
  cases result with
  | none =>
    intro pos rest hrest
    rw [heq]
    exact h pos rest hrest
  | some a =>
    intro pos rest hrest
    rw [heq]
    exact h pos rest hrest

/-- A scan that fails on bytes fails on more of them. -/
theorem Gives.append_none {s : Scan α} {bs cs : Bytes} (hs : s.Gives Q bs none)
    (hP : ∀ rest, P rest → Q (cs ++ rest)) : s.Gives P (bs ++ cs) none := by
  intro pos rest hrest
  rw [List.append_assoc]
  exact hs pos (cs ++ rest) (hP rest hrest)

/-- Where the first scan fails, the one behind it is not run. -/
theorem Gives.bind_none {s : Scan α} {f : α → Scan β} {bs cs : Bytes} (hs : s.Gives Q bs none)
    (hP : ∀ rest, P rest → Q (cs ++ rest)) : (s >>= f).Gives P (bs ++ cs) none := by
  intro pos rest hrest
  obtain ⟨e, d, hfail⟩ := hs pos (cs ++ rest) (hP rest hrest)
  rw [bind_apply, List.append_assoc, hfail]
  exact ⟨e, d, rfl⟩

theorem Gives.bind {s : Scan α} {f : α → Scan β} {bs cs : Bytes} {result : Option α}
    {next : α → Option β} (hs : s.Gives Q bs result)
    (hf : ∀ a, result = some a → (f a).Gives P cs (next a)) (hP : ∀ rest, P rest → Q (cs ++ rest)) :
    (s >>= f).Gives P (bs ++ cs) (result.bind next) := by
  cases result with
  | none => exact hs.bind_none hP
  | some a =>
    have hbind : ∀ pos rest, P rest →
        (s >>= f) ⟨pos, bs ++ cs ++ rest⟩ = f a ⟨pos + bs.length, cs ++ rest⟩ := by
      intro pos rest hrest
      rw [bind_apply, List.append_assoc, hs pos (cs ++ rest) (hP rest hrest)]
    have hnext := hf a rfl
    show (s >>= f).Gives P (bs ++ cs) (next a)
    cases hresult : next a with
    | none =>
      rw [hresult] at hnext
      intro pos rest hrest
      rw [hbind pos rest hrest]
      exact hnext _ rest hrest
    | some b =>
      rw [hresult] at hnext
      intro pos rest hrest
      rw [hbind pos rest hrest, hnext _ rest hrest, List.length_append, Nat.add_assoc]

/-- A value that is certain, and the scan behind it. -/
theorem Gives.then {s : Scan α} {f : α → Scan β} {bs cs : Bytes} {a : α} {result : Option β}
    (hs : s.Gives Q bs (some a)) (hf : (f a).Gives P cs result)
    (hP : ∀ rest, P rest → Q (cs ++ rest)) : (s >>= f).Gives P (bs ++ cs) result := by
  have hbind : (s >>= f).Gives P (bs ++ cs) ((some a).bind fun _ => result) := by
    refine hs.bind (fun a' ha => ?_) hP
    cases ha
    exact hf
  exact hbind

/-- A value that is certain whatever follows, and the scan behind it. -/
theorem Gives.before {s : Scan α} {f : α → Scan β} {bs cs : Bytes} {a : α} {result : Option β}
    (hs : s.Gives (fun _ => True) bs (some a)) (hf : (f a).Gives P cs result) :
    (s >>= f).Gives P (bs ++ cs) result :=
  hs.then hf fun _ _ => trivial

/-- A value that is certain, and a scan behind it that reads nothing more. -/
theorem Gives.finish {s : Scan α} {f : α → Scan β} {bs : Bytes} {a : α} {result : Option β}
    (hs : s.Gives P bs (some a)) (hf : (f a).Gives P [] result) : (s >>= f).Gives P bs result := by
  have hbind := hs.then hf fun _ hrest => hrest
  rw [List.append_nil] at hbind
  exact hbind

theorem Gives.map {s : Scan α} {bs : Bytes} {result : Option α} (h : s.Gives P bs result)
    (f : α → β) : (f <$> s).Gives P bs (result.map f) := by
  cases result with
  | none =>
    intro pos rest hrest
    obtain ⟨e, d, hfail⟩ := h pos rest hrest
    rw [map_apply, hfail]
    exact ⟨e, d, rfl⟩
  | some a =>
    intro pos rest hrest
    rw [map_apply, h pos rest hrest]

/-! ### Bytes one by one -/

theorem gives_eat (b : UInt8) : (eat b).Gives P [b] (some true) := fun _ _ _ => if_pos rfl

theorem gives_eat_false {b : UInt8} (h : ∀ rest, P rest → rest.head? ≠ some b) :
    (eat b).Gives P [] (some false) := fun _ rest hrest => if_neg (h rest hrest)

theorem gives_expectSpace : expectSpace.Gives P [Ascii.space] (some ()) :=
  (gives_eat Ascii.space).finish (gives_pure ())

theorem gives_takeWhile {p : UInt8 → Bool} {bs : Bytes} (hbs : ∀ b ∈ bs, p b)
    (hP : ∀ rest, P rest → ∀ b ∈ rest.head?, ¬ p b) : (takeWhile p).Gives P bs (some bs) := by
  intro pos rest hrest
  have htake : (bs ++ rest).takeWhile p = bs := by
    have hspan := span_append hbs (hP rest hrest)
    rw [List.span_eq_takeWhile_dropWhile] at hspan
    exact congrArg Prod.fst hspan
  simp [takeWhile, htake, Cursor.skip]

theorem gives_take? (bs : Bytes) : (take? bs.length).Gives P bs (some (some bs)) := by
  intro pos rest _
  simp [take?, Cursor.skip]

/-! ### Lists -/

/-- Without a space in front there are no items. -/
theorem spaced_of_not_space {item : Scan (Option α)} {hitem : item.Forward} {c : Cursor}
    (h : c.rest.head? ≠ some Ascii.space) : spaced item hitem c = .ok [] c := by
  rw [spaced]
  split
  next => rfl
  next b rest hc =>
    refine if_neg ?_
    rintro rfl
    simp [hc] at h

/-- Behind a space there is an item, or the end of the list. -/
theorem spaced_space (item : Scan (Option α)) (hitem : item.Forward) (pos : Nat) (bs : Bytes) :
    spaced item hitem ⟨pos, Ascii.space :: bs⟩ =
      (item >>= fun a? => a?.elim (pure []) fun a => (a :: ·) <$> spaced item hitem)
        ⟨pos + 1, bs⟩ := by
  have hskip : (⟨pos, Ascii.space :: bs⟩ : Cursor).skip 1 = ⟨pos + 1, bs⟩ := rfl
  rw [spaced, bind_apply]
  dsimp only
  rw [if_pos rfl, hskip]
  split
  next h => rw [h]
  next h =>
    rw [h]
    rfl
  next a d h =>
    rw [h]
    refine Eq.trans ?_ (map_apply (a :: ·) (spaced item hitem) d).symm
    cases spaced item hitem d <;> rfl

/-- Items with a space in front of each are read as a list, if each of them is read as an item and
what stands behind the last of them ends the list. -/
theorem gives_spaced_before {ι : Type} {item : Scan (Option α)} {hitem : item.Forward}
    {bytes : ι → Bytes} {value : ι → α} {tail : Bytes}
    (h : ∀ i, item.Gives Q (bytes i) (some (some (value i))))
    (hspace : ∀ rest, Q (Ascii.space :: rest)) (hend : ∀ rest, P rest → Q (tail ++ rest))
    (htail : Gives (spaced item hitem) P tail (some [])) (items : List ι) :
    Gives (spaced item hitem) P ((items.flatMap fun i => Ascii.space :: bytes i) ++ tail)
      (some (items.map value)) := by
  induction items with
  | nil => exact htail
  | cons i items ih =>
    have hnext : ∀ rest, P rest →
        Q ((items.flatMap fun i => Ascii.space :: bytes i) ++ tail ++ rest) := by
      intro rest hrest
      cases items with
      | nil => exact hend rest hrest
      | cons j items => exact hspace _
    have hitems : Gives
        (item >>= fun a? => a?.elim (pure []) fun a => (a :: ·) <$> spaced item hitem) P
        (bytes i ++ ((items.flatMap fun i => Ascii.space :: bytes i) ++ tail))
        (some (value i :: items.map value)) :=
      (h i).then (ih.map (value i :: ·)) hnext
    intro pos rest hrest
    rw [List.flatMap_cons, List.cons_append, List.cons_append, List.append_assoc,
      List.cons_append, spaced_space]
    refine (hitems (pos + 1) rest hrest).trans ?_
    rw [List.length_cons, Nat.add_right_comm, Nat.add_assoc]
    rfl

/-- Items with a space in front of each are read as a list, if no further space follows. -/
theorem gives_spaced {ι : Type} {item : Scan (Option α)} {hitem : item.Forward} {bytes : ι → Bytes}
    {value : ι → α} (h : ∀ i, item.Gives Q (bytes i) (some (some (value i))))
    (hspace : ∀ rest, Q (Ascii.space :: rest)) (hend : ∀ rest, P rest → Q rest)
    (hlast : ∀ rest, P rest → rest.head? ≠ some Ascii.space) (items : List ι) :
    Gives (spaced item hitem) P (items.flatMap fun i => Ascii.space :: bytes i)
      (some (items.map value)) := by
  have htail : Gives (spaced item hitem) P [] (some []) :=
    fun _ rest hrest => spaced_of_not_space (hlast rest hrest)
  have hitems := gives_spaced_before h hspace hend htail items
  rw [List.append_nil] at hitems
  exact hitems

/-! ### Punctuation -/

/-- A byte of punctuation is a token by itself. -/
theorem gives_token_punctuation {b : UInt8} {t : Token} (h : punctuation? b = some t) :
    token.Gives P [b] (some t) := by
  intro pos rest _
  simp only [token, List.singleton_append, h]
  rfl

end Scan

/-! ### Words -/

/-- No word goes on with these bytes. -/
def EndsWord (rest : Bytes) : Prop := ∀ b ∈ rest.head?, ¬ isAtomByte b

theorem endsWord_cons {b : UInt8} (h : ¬ isAtomByte b) (rest : Bytes) : EndsWord (b :: rest) :=
  forall_mem_head?_cons h rest

/-- A word: atom characters, one at least. -/
structure Word where
  bytes : Bytes
  ne_nil : bytes ≠ []
  isAtom : ∀ b ∈ bytes, isAtomByte b

theorem lt_of_isAtomByte {b : UInt8} (h : isAtomByte b) : b < 0x80 := by
  simp only [isAtomByte, Bool.and_eq_true, decide_eq_true_eq, bne_iff_ne] at h
  grind

theorem isAtomByte_of_isDigit {b : UInt8} (h : Ascii.isDigit b) : isAtomByte b := by
  simp only [Ascii.isDigit, isAtomByte, Bool.and_eq_true, decide_eq_true_eq, bne_iff_ne] at h ⊢
  grind

/-- Whether a word begins with punctuation, which is a token of its own. -/
def opensWithPunctuation (bs : Bytes) : Bool :=
  bs.head? = some Ascii.openBracket || bs.head? = some Ascii.plus

/-- The token that atom characters are. Digits may be too large a number. -/
def wordToken? (bs : Bytes) : Option Token :=
  if opensWithPunctuation bs then none
  else if bs.all Ascii.isDigit then (Decimal.decodeBelow? numberBound bs).map .number
  else if upperCase bs = utf8 "NIL" then some .nil
  else some (.atom bs)

/-- Digits are a number, unless it is too large. -/
theorem wordToken?_of_isDigit {bs : Bytes} (h : ∀ b ∈ bs, Ascii.isDigit b) :
    wordToken? bs = (Decimal.decodeBelow? numberBound bs).map .number := by
  have hplain : ¬ opensWithPunctuation bs := by
    simp only [opensWithPunctuation, Bool.or_eq_true, decide_eq_true_eq]
    rintro (hb | hb) <;> exact absurd (h _ (List.mem_of_mem_head? hb)) (by decide)
  rw [wordToken?, if_neg hplain, if_pos (List.all_eq_true.mpr h)]

/-- A word is a scalar, if it is a token at all. -/
theorem isScalar_of_wordToken? {bs : Bytes} {t : Token} (h : wordToken? bs = some t) :
    t.isScalar := by
  unfold wordToken? at h
  split at h
  · cases h
  · split at h
    · obtain ⟨n, -, rfl⟩ := Option.map_eq_some_iff.mp h
      rfl
    · split at h <;> (cases h; rfl)

/-- Whether the byte is a letter. -/
def isLetter (b : UInt8) : Bool := 0x41 ≤ Ascii.upper b && Ascii.upper b ≤ 0x5A

/-- A word that begins with a letter. -/
structure LetterWord extends Word where
  isLetter_head : ∀ b ∈ bytes.head?, isLetter b

theorem not_isDigit_of_isLetter {b : UInt8} (h : isLetter b) : ¬ Ascii.isDigit b := by
  simp only [isLetter, Ascii.upper, Ascii.isDigit, Bool.and_eq_true, decide_eq_true_eq] at h ⊢
  grind

namespace LetterWord

theorem not_opensWithPunctuation (w : LetterWord) : ¬ opensWithPunctuation w.bytes := by
  simp only [opensWithPunctuation, Bool.or_eq_true, decide_eq_true_eq]
  rintro (hb | hb) <;> exact absurd (w.isLetter_head _ hb) (by decide)

theorem not_all_isDigit (w : LetterWord) : ¬ w.bytes.all Ascii.isDigit := by
  obtain ⟨b, tail, hbytes⟩ := List.exists_cons_of_ne_nil w.ne_nil
  have hb : ¬ Ascii.isDigit b := not_isDigit_of_isLetter (w.isLetter_head b (by simp [hbytes]))
  simp [hbytes, hb]

/-- A word that begins with a letter is an atom, or `NIL`. -/
theorem wordToken?_eq (w : LetterWord) : wordToken? w.bytes =
    if upperCase w.bytes = utf8 "NIL" then some .nil else some (.atom w.bytes) := by
  rw [wordToken?, if_neg w.not_opensWithPunctuation, if_neg w.not_all_isDigit]

end LetterWord

namespace Scan

theorem punctuation?_of_isAtomByte {b : UInt8} (h : isAtomByte b)
    (hb : ¬ (b = Ascii.openBracket ∨ b = Ascii.plus)) : punctuation? b = none := by
  rw [not_or] at hb
  have hspace : b ≠ Ascii.space := by rintro rfl; exact absurd h (by decide)
  have hopen : b ≠ Ascii.openParen := by rintro rfl; exact absurd h (by decide)
  have hclose : b ≠ Ascii.closeParen := by rintro rfl; exact absurd h (by decide)
  have hbracket : b ≠ Ascii.closeBracket := by rintro rfl; exact absurd h (by decide)
  have hstar : b ≠ Ascii.star := by rintro rfl; exact absurd h (by decide)
  simp [punctuation?, hspace, hopen, hclose, hb, hbracket, hstar]

/-- A word without punctuation in front is read as a whole. -/
theorem token_eq_word {w : Word} (hw : ¬ opensWithPunctuation w.bytes) (pos : Nat) (rest : Bytes) :
    token ⟨pos, w.bytes ++ rest⟩ = word ⟨pos, w.bytes ++ rest⟩ := by
  obtain ⟨_ | ⟨b, tail⟩, hne, hatoms⟩ := w
  · exact absurd rfl hne
  · have hb : ¬ (b = Ascii.openBracket ∨ b = Ascii.plus) := by
      simpa [opensWithPunctuation] using hw
    have hatom : isAtomByte b := hatoms b List.mem_cons_self
    have hcr : b ≠ Ascii.cr := by rintro rfl; exact absurd hatom (by decide)
    have hquote : b ≠ Ascii.quote := by rintro rfl; exact absurd hatom (by decide)
    have hbrace : b ≠ Ascii.openBrace := by rintro rfl; exact absurd hatom (by decide)
    simp [token, punctuation?_of_isAtomByte hatom hb, hcr, hquote, hbrace, hatom]

theorem gives_word {w : Word} (hw : ¬ opensWithPunctuation w.bytes) :
    token.Gives EndsWord w.bytes (wordToken? w.bytes) := by
  have hword : word.Gives EndsWord w.bytes (wordToken? w.bytes) := by
    refine (gives_takeWhile w.isAtom fun _ hrest => hrest).finish ?_
    rw [wordToken?, if_neg hw]
    split
    · cases Decimal.decodeBelow? numberBound w.bytes with
      | none => exact gives_fail _ _
      | some n => exact gives_pure _
    · split <;> exact gives_pure _
  exact hword.congr (token_eq_word hw)

/-- A word that begins with a letter and is not `NIL` is read as an atom. -/
theorem gives_letterWord {w : LetterWord} (h : upperCase w.bytes ≠ utf8 "NIL") :
    token.Gives EndsWord w.bytes (some (.atom w.bytes)) := by
  have hword := gives_word w.not_opensWithPunctuation
  rw [w.wordToken?_eq, if_neg h] at hword
  exact hword

/-! ### Quoted strings -/

theorem quotedBytes_append {content : Bytes}
    (hcontent : ∀ b ∈ content, b ≠ Ascii.cr ∧ b ≠ Ascii.lf) (pos : Nat) (rest : Bytes) :
    quotedBytes pos (content.flatMap Text.quoteByte ++ Ascii.quote :: rest) =
      .ok content ⟨pos + (content.flatMap Text.quoteByte).length + 1, rest⟩ := by
  induction content generalizing pos with
  | nil =>
    rw [quotedBytes.eq_def]
    rfl
  | cons b content ih =>
    obtain ⟨hb, hrest⟩ := List.forall_mem_cons.mp hcontent
    rw [List.flatMap_cons, Text.quoteByte]
    split
    next hescape =>
      have hquote : ¬ Ascii.backslash = Ascii.quote := by decide
      rw [quotedBytes.eq_def]
      simp only [List.cons_append, List.nil_append, if_neg hquote, if_pos hescape, ih hrest]
      simp
      omega
    next hplain =>
      rw [not_or] at hplain
      rw [quotedBytes.eq_def]
      simp [hplain, hb, ih hrest, Nat.add_assoc, Nat.add_comm]

end Scan

/-- A text that a quoted string can hold. -/
structure QuotedText where
  text : String
  oneLine : ∀ b ∈ utf8 text, b ≠ Ascii.cr ∧ b ≠ Ascii.lf

namespace Scan

theorem gives_quoted (q : QuotedText) :
    token.Gives P (Text.quoted (utf8 q.text)) (some (.quoted q.text)) := by
  intro pos rest _
  have hcontent : quotedContent ⟨pos + 1, (utf8 q.text).flatMap Text.quoteByte ++
      Ascii.quote :: rest⟩ = _ := quotedBytes_append q.oneLine (pos + 1) rest
  have hbytes : Text.quoted (utf8 q.text) ++ rest =
      Ascii.quote :: ((utf8 q.text).flatMap Text.quoteByte ++ Ascii.quote :: rest) := by
    simp [Text.quoted]
  have hlength : pos + (Text.quoted (utf8 q.text)).length =
      pos + 1 + ((utf8 q.text).flatMap Text.quoteByte).length + 1 := by
    simp [Text.quoted]
    omega
  rw [hbytes, hlength]
  show quotedString ⟨pos + 1, (utf8 q.text).flatMap Text.quoteByte ++ Ascii.quote :: rest⟩ = _
  simp only [quotedString, bind_apply, hcontent, ofUtf8?_utf8]
  rfl

end Scan

/-! ### Literals -/

/-- The data of a literal, and how its header announces their size. -/
structure LiteralText where
  digits : Bytes
  /-- Whether a plus sign stands behind the size. -/
  plus : Bool
  data : Bytes
  size : Decimal.decodeBelow? sizeBound digits = some data.length

/-- The bytes of a literal. -/
def LiteralText.bytes (l : LiteralText) : Bytes :=
  Ascii.openBrace ::
    (l.digits ++ ((if l.plus then [Ascii.plus] else []) ++ (Ascii.closeBrace :: crlf ++ l.data)))

namespace Scan

theorem gives_literal (l : LiteralText) : token.Gives P l.bytes (some (.literal l.data)) := by
  obtain ⟨digits, plus, data, hsize⟩ := l
  have hdigits := (Decimal.isDigit_of_decodeBelow? hsize).2
  have hplus : (eat Ascii.plus).Gives (fun rest => rest.head? = some Ascii.closeBrace)
      (if plus then [Ascii.plus] else []) (some plus) := by
    cases plus with
    | true => exact gives_eat _
    | false =>
      refine gives_eat_false fun rest hrest => ?_
      rw [hrest]
      decide
  have hstop : ∀ rest : Bytes, ∀ b ∈ ((if plus then [Ascii.plus] else []) ++
      ([Ascii.closeBrace] ++ ([Ascii.cr] ++ ([Ascii.lf] ++ data))) ++ rest).head?,
      ¬ Ascii.isDigit b := by
    intro rest
    cases plus <;> exact forall_mem_head?_cons (by decide) _
  have hscan : literal.Gives P (digits ++ ((if plus then [Ascii.plus] else []) ++
      ([Ascii.closeBrace] ++ ([Ascii.cr] ++ ([Ascii.lf] ++ data)))))
      (some (.literal data)) := by
    refine (gives_takeWhile hdigits fun rest hrest => hrest).then ?_ fun rest _ => hstop rest
    rw [hsize]
    refine hplus.then ?_ fun _ _ => rfl
    refine (gives_eat _).before ?_
    refine (gives_eat _).before ?_
    refine (gives_eat _).before ?_
    exact (gives_take? data).finish (gives_pure _)
  intro pos rest hrest
  have hlength : pos + (LiteralText.bytes ⟨digits, plus, data, hsize⟩).length = pos + 1 +
      (digits ++ ((if plus then [Ascii.plus] else []) ++
        ([Ascii.closeBrace] ++ ([Ascii.cr] ++ ([Ascii.lf] ++ data))))).length := by
    simp [LiteralText.bytes, crlf]
    omega
  rw [hlength]
  exact hscan (pos + 1) rest hrest

end Scan

/-! ### Scalars -/

/-- A word or a string. -/
inductive Scalar
  | word (w : Word)
  | quoted (q : QuotedText)
  | literal (l : LiteralText)

namespace Scalar

/-- The bytes of a scalar. -/
def bytes : Scalar → Bytes
  | .word w => w.bytes
  | .quoted q => Text.quoted (utf8 q.text)
  | .literal l => l.bytes

/-- The token that a scalar is, if it is one. -/
def token? : Scalar → Option Token
  | .word w => wordToken? w.bytes
  | .quoted q => some (.quoted q.text)
  | .literal l => some (.literal l.data)

theorem isScalar_of_token? {s : Scalar} {t : Token} (h : s.token? = some t) : t.isScalar := by
  cases s with
  | word w => exact isScalar_of_wordToken? h
  | _ => cases h; rfl

end Scalar

namespace Scan

theorem gives_scalar {s : Scalar} {t : Token} (h : s.token? = some t) :
    token.Gives EndsWord s.bytes (some t) := by
  cases s with
  | word w =>
    have hw : ¬ opensWithPunctuation w.bytes := by
      intro hopens
      rw [Scalar.token?, wordToken?, if_pos hopens] at h
      cases h
    rw [← h]
    exact gives_word hw
  | quoted q =>
    cases h
    exact gives_quoted q
  | literal l =>
    cases h
    exact gives_literal l

/-- Punctuation in front of a word is a bracket or a plus sign. -/
theorem exists_punctuation? {bs : Bytes} (h : opensWithPunctuation bs) :
    ∃ b tail t, bs = b :: tail ∧ punctuation? b = some t ∧
      (t = .codeStart ∨ t = .continuation) := by
  simp only [opensWithPunctuation, Bool.or_eq_true, decide_eq_true_eq] at h
  rcases h with h | h
  · obtain ⟨tail, rfl⟩ := List.head?_eq_some_iff.mp h
    exact ⟨_, tail, .codeStart, rfl, rfl, .inl rfl⟩
  · obtain ⟨tail, rfl⟩ := List.head?_eq_some_iff.mp h
    exact ⟨_, tail, .continuation, rfl, rfl, .inr rfl⟩

/-- What a scan makes of a scalar, if it goes by one token and has no use for a bracket or a plus
sign. -/
theorem gives_token_bind {s : Scalar} {f : Token → Scan β} {next : Token → Option β}
    (hf : ∀ t, s.token? = some t → (f t).Gives EndsWord [] (next t))
    (hrefused : ∀ t, t = .codeStart ∨ t = .continuation → ∀ bs, (f t).Gives EndsWord bs none) :
    (token >>= f).Gives EndsWord s.bytes (s.token?.bind next) := by
  cases h : s.token? with
  | some t => exact (gives_scalar h).finish (hf t h)
  | none =>
    cases s with
    | quoted q => cases h
    | literal l => cases h
    | word w =>
      rw [Scalar.bytes]
      by_cases hopens : opensWithPunctuation w.bytes
      · obtain ⟨b, tail, t, hbytes, hb, ht⟩ := exists_punctuation? hopens
        rw [hbytes]
        exact (gives_token_punctuation hb).before (hrefused t ht tail)
      · have hword := gives_word hopens
        have hnone : wordToken? w.bytes = none := h
        have hfails : (token >>= f).Gives EndsWord (w.bytes ++ []) none := by
          rw [hnone] at hword
          exact hword.bind_none fun _ hrest => hrest
        rw [List.append_nil] at hfails
        exact hfails

end Scan

end ImapSearch
