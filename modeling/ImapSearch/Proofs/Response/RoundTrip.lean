import ImapSearch.Proofs.Response.Remark
import ImapSearch.Proofs.Response.ResultRoundTrip

/-!
# ImapSearch.Proofs.Response.RoundTrip

**Responses, read back.** A `ResponseForm` is a response as a server writes it, of any
kind but an extended result: what it says, and what the grammar leaves open, such as the
case of a keyword. It is read back as what it says (`ResponseForm.parse_line`).

The first token decides what the rest of a line is, so each kind comes down to a token
and a lemma about the scan behind it. Lists are read by one scan for every kind of item
(`Scan.gives_spaced`).
-/

namespace ImapSearch

/-! ### Numbers -/

namespace Scan

/-- A word that is a number is read as one, since the line does not end in front of it. -/
theorem gives_numberUnlessLineEnds {w : Word} {n : Nat}
    (h : wordToken? w.bytes = some (.number n)) :
    numberUnlessLineEnds.Gives EndsWord w.bytes (some (some n)) := by
  have hnumber := gives_number w
  rw [h] at hnumber
  refine (hnumber.map some).congr fun pos rest => ?_
  obtain ⟨b, tail, hbytes⟩ := List.exists_cons_of_ne_nil w.ne_nil
  have hatom : isAtomByte b := w.isAtom b (by simp [hbytes])
  have hcr : b ≠ Ascii.cr := by
    rintro rfl
    exact absurd hatom (by decide)
  have hends : (⟨pos, w.bytes ++ rest⟩ : Cursor).atLineEnd = false := by
    simp [Cursor.atLineEnd, Cursor.peek, hbytes, hcr]
  rw [numberUnlessLineEnds, bind_apply, lineEnds, hends]
  rfl

/-- The numbers that a search found are read up to the line terminator. -/
theorem gives_searchNums (nums : List UInt32) :
    searchNums.Gives AtLineEnd
      (nums.flatMap fun n => Ascii.space :: (FieldForm.numberWord n).bytes)
      (some (nums.map UInt32.toNat)) := by
  refine (gives_spaced (fun n => gives_numberUnlessLineEnds (wordToken?_encode n))
    (fun _ => endsWord_cons (by decide) _) (fun _ hrest => hrest.endsWord)
    (fun _ hrest => hrest.head?_ne_space) nums).finish ?_
  exact (gives_expectLineEnd "SEARCH").finish (gives_pure _)

end Scan

/-! ### Capabilities -/

/-- The name of a known capability, as an atom. -/
def Capability.atom (cap : Capability) (h : cap ∈ known) : UpperAtom :=
  have haccepts : ∀ cap ∈ known, UpperAtom.accepts cap.keyword := by decide +kernel
  .ofBytes cap.keyword (haccepts cap h)

/-- A capability as it is written. -/
inductive CapabilityForm
  /-- A known capability. Its name may be written in any case. -/
  | known (cap : Capability) (h : cap ∈ Capability.known) (name : Spelling cap.keyword)
  /-- A capability whose name is not a known one in any case. -/
  | other (name : PlainAtom) (h : ∀ cap ∈ Capability.known, upperCase name.bytes ≠ cap.keyword)

namespace CapabilityForm

/-- The bytes of the name. -/
def bytes : CapabilityForm → Bytes
  | .known _ _ name => name.bytes
  | .other name _ => name.bytes

/-- The capability that is written. -/
def value : CapabilityForm → Capability
  | .known cap _ _ => cap
  | .other name _ => .other name.text

end CapabilityForm

namespace Scan

theorem gives_capability (form : CapabilityForm) :
    capability.Gives EndsWord form.bytes (some form.value) := by
  cases form with
  | known cap h name =>
    refine (gives_plainAtom ((cap.atom h).spelled name)).finish ?_
    show Gives (pure (Capability.ofText (asciiText name.bytes))) EndsWord [] (some cap)
    rw [Capability.ofText_known h name]
    exact gives_pure cap
  | other name h =>
    refine (gives_plainAtom name).finish ?_
    show Gives (pure (Capability.ofText name.text)) EndsWord [] (some (.other name.text))
    rw [PlainAtom.text,
      Capability.ofText_other (fun b hb => lt_of_isAtomByte (name.isAtom b hb)) h]
    exact gives_pure _

theorem gives_capabilities (caps : List CapabilityForm) :
    capabilities.Gives AtLineEnd (caps.flatMap fun cap => Ascii.space :: cap.bytes)
      (some (caps.map CapabilityForm.value)) :=
  gives_spaced (fun cap => (gives_capability cap).map some) (fun _ => endsWord_cons (by decide) _)
    (fun _ hrest => hrest.endsWord) (fun _ hrest => hrest.head?_ne_space) caps

end Scan

/-! ### Responses -/

/-- The keywords by which the parser knows an untagged response. -/
def recognizedKeywords : List Bytes :=
  [Status.ok, .no, .bad, .preauth, .bye].map Status.word ++
    [utf8 "CAPABILITY", utf8 "SEARCH", utf8 "ESEARCH"]

/-- The keyword `SEARCH`, as an atom. -/
def searchAtom : UpperAtom := .ofBytes (utf8 "SEARCH") (by decide +kernel)

/-- The keyword `CAPABILITY`, as an atom. -/
def capabilityAtom : UpperAtom := .ofBytes (utf8 "CAPABILITY") (by decide +kernel)

/-- A response as it is written, of any kind but an extended result. Statuses and keywords may be
written in any case. -/
inductive ResponseForm
  /-- The completion of a command. -/
  | tagged (tag : PlainAtom) (status : Status) (word : Spelling status.word)
      (text : Option LineText)
  /-- A request to go on. -/
  | continuation (text : Option LineText)
  /-- A remark of the server. -/
  | remark (status : Status) (word : Spelling status.word) (text : Option LineText)
  /-- The numbers that a search found. -/
  | search (keyword : Spelling (utf8 "SEARCH")) (nums : List UInt32)
  /-- What the server can do. -/
  | capabilities (keyword : Spelling (utf8 "CAPABILITY")) (caps : List CapabilityForm)
  /-- News about a number. -/
  | numbered (n : UInt32) (keyword : UpperAtom) (word : Spelling keyword.bytes)
      (rest : Option LineBytes)
  /-- Any other response. -/
  | other (keyword : UpperAtom) (h : keyword.bytes ∉ recognizedKeywords)
      (word : Spelling keyword.bytes) (rest : Option LineBytes)

namespace ResponseForm

/-- The bytes of an untagged response, whose keyword stands before its body. -/
def untaggedBytes (keyword body : Bytes) : Bytes :=
  Ascii.star :: Ascii.space :: (keyword ++ body)

/-- The bytes of the response, without the line terminator. -/
def bytes : ResponseForm → Bytes
  | .tagged tag _ word text =>
    tag.bytes ++ Ascii.space :: (word.bytes ++ lineTail (text.map LineText.toBytes))
  | .continuation text => Ascii.plus :: lineTail (text.map LineText.toBytes)
  | .remark _ word text => untaggedBytes word.bytes (lineTail (text.map LineText.toBytes))
  | .search keyword nums =>
    untaggedBytes keyword.bytes
      (nums.flatMap fun n => Ascii.space :: (FieldForm.numberWord n).bytes)
  | .capabilities keyword caps =>
    untaggedBytes keyword.bytes (caps.flatMap fun cap => Ascii.space :: cap.bytes)
  | .numbered n _ word rest =>
    untaggedBytes (FieldForm.numberWord n).bytes (Ascii.space :: (word.bytes ++ lineTail rest))
  | .other _ _ word rest => untaggedBytes word.bytes (lineTail rest)

/-- The response that is written. -/
def response : ResponseForm → Response
  | .tagged tag status _ text => .tagged ⟨tag.text⟩ status (text.elim "" LineText.text)
  | .continuation text => .continuation ((text.map LineText.text).filter (· ≠ ""))
  | .remark status _ text => .untagged (.remark status (text.elim "" LineText.text))
  | .search _ nums => .untagged (.search (nums.map UInt32.toNat))
  | .capabilities _ caps => .untagged (.capabilities (caps.map CapabilityForm.value))
  | .numbered n keyword _ _ => .untagged (.numbered n.toNat keyword.text)
  | .other keyword _ _ _ => .untagged (.other keyword.text)

end ResponseForm

namespace Scan

variable {P : Bytes → Prop}

/-- Behind an asterisk the response is an untagged one. -/
theorem gives_star {body : Bytes} {data : Untagged} (h : untagged.Gives P body (some data)) :
    response.Gives P (Ascii.star :: body) (some (.untagged data)) := by
  have hstar : punctuation? Ascii.star = some .untagged := rfl
  exact (gives_token_punctuation hstar).before (h.map Response.untagged)

/-- Behind an asterisk the next word is the keyword of the response. -/
theorem gives_untagged (keyword : UpperAtom) (word : Spelling keyword.bytes) {body : Bytes}
    {data : Untagged} (hbody : (untaggedBody keyword.bytes).Gives P body (some data))
    (hends : ∀ rest, P rest → EndsWord (body ++ rest)) :
    response.Gives P (ResponseForm.untaggedBytes word.bytes body) (some (.untagged data)) := by
  have huntagged : untagged.Gives P ([Ascii.space] ++ (word.bytes ++ body)) (some data) := by
    refine gives_expectSpace.before ((gives_plainAtom (keyword.spelled word)).then ?_ hends)
    show (untaggedBody (upperCase word.bytes)).Gives P body (some data)
    rw [word.isKeyword]
    exact hbody
  exact gives_star huntagged

/-- Behind an asterisk a number says what the news are about. -/
theorem gives_untagged_number (n : UInt32) {body : Bytes} {data : Untagged}
    (hbody : (numbered n.toNat).Gives P (Ascii.space :: body) (some data)) :
    response.Gives P (ResponseForm.untaggedBytes (FieldForm.numberWord n).bytes
      (Ascii.space :: body)) (some (.untagged data)) := by
  have hnumber : token.Gives EndsWord (FieldForm.numberWord n).bytes (some (.number n.toNat)) :=
    gives_scalar (s := .word (FieldForm.numberWord n)) (wordToken?_encode n)
  have huntagged : untagged.Gives P ([Ascii.space] ++ ((FieldForm.numberWord n).bytes ++
      Ascii.space :: body)) (some data) :=
    gives_expectSpace.before (hnumber.then hbody fun _ _ => endsWord_cons (by decide) _)
  exact gives_star huntagged

theorem gives_continuation (text : Option LineText) :
    response.Gives P (Ascii.plus :: lineTail (text.map LineText.toBytes) ++ crlf)
      (some (.continuation ((text.map LineText.text).filter (· ≠ "")))) := by
  have hplus : punctuation? Ascii.plus = some .continuation := rfl
  have hremark := (gives_remark text (P := P)).map fun text =>
    Response.continuation (if text = "" then none else some text)
  have hvalue : (if text.elim "" LineText.text = "" then none
      else some (text.elim "" LineText.text)) = (text.map LineText.text).filter (· ≠ "") := by
    cases text with
    | none => rfl
    | some text => by_cases hempty : text.text = "" <;> simp [Option.filter, hempty]
  rw [Option.map_some, hvalue] at hremark
  exact (gives_token_punctuation hplus).before hremark

theorem untaggedBody_status (s : Status) : untaggedBody s.word = .remark s <$> remark := by
  have hstatus : Status.ofWord? s.word = some s :=
    Status.ofWord?_spelling ⟨s.word, s.atom.isUpper⟩
  rw [untaggedBody, hstatus]

theorem untaggedBody_search : untaggedBody (utf8 "SEARCH") = .search <$> searchNums := by
  have hstatus : Status.ofWord? (utf8 "SEARCH") = none := by decide +kernel
  have hcapability : utf8 "SEARCH" ≠ utf8 "CAPABILITY" := by decide +kernel
  rw [untaggedBody, hstatus]
  dsimp only
  rw [if_neg hcapability, if_pos rfl]

theorem untaggedBody_capability :
    untaggedBody (utf8 "CAPABILITY") = .capabilities <$> capabilities := by
  have hstatus : Status.ofWord? (utf8 "CAPABILITY") = none := by decide +kernel
  rw [untaggedBody, hstatus]
  dsimp only
  rw [if_pos rfl]

theorem untaggedBody_other {keyword : UpperAtom} (h : keyword.bytes ∉ recognizedKeywords) :
    untaggedBody keyword.bytes = (fun _ => .other keyword.text) <$> line := by
  simp only [recognizedKeywords, List.mem_append, not_or, List.mem_cons, List.not_mem_nil,
    or_false] at h
  obtain ⟨hwords, hcapability, hsearch, hextended⟩ := h
  have hstatus : Status.ofWord? keyword.bytes = none := by
    rw [Status.ofWord?, List.find?_eq_none, keyword.isUpper]
    intro s hs
    rw [decide_eq_true_eq]
    intro hword
    exact hwords (List.mem_map.mpr ⟨s, hs, hword⟩)
  rw [untaggedBody, hstatus]
  dsimp only
  rw [if_neg hcapability, if_neg hsearch, if_neg hextended]
  rfl

theorem gives_numbered (n : Nat) (keyword : UpperAtom) (word : Spelling keyword.bytes)
    (rest : Option LineBytes) :
    (numbered n).Gives P (Ascii.space :: (word.bytes ++ (lineTail rest ++ crlf)))
      (some (.numbered n keyword.text)) := by
  have hline := (gives_line (not_crlf_infix_lineTail rest) (P := P)).map fun _ =>
    Untagged.numbered n (asciiText (upperCase word.bytes))
  rw [word.isKeyword] at hline
  refine gives_expectSpace.before ((gives_atom (keyword.spelled word)).then ?_
    fun more _ => endsWord_lineTail rest more)
  show Scan.Gives ((fun _ => Untagged.numbered n (asciiText (upperCase word.bytes))) <$> line) _ _ _
  rw [word.isKeyword]
  exact hline

end Scan

/-- Where a list ends, or a line terminator stands, the word in front of it ends. -/
theorem endsWord_flatMap_space {ι : Type} (bytes : ι → Bytes) (items : List ι) {rest : Bytes}
    (h : Scan.AtLineEnd rest) :
    EndsWord ((items.flatMap fun i => Ascii.space :: bytes i) ++ rest) := by
  cases items with
  | nil => exact h.endsWord
  | cons i items => exact endsWord_cons (by decide) _

namespace ResponseForm

/-- A keyword and a body in front of a line terminator, as one run of bytes. -/
theorem untaggedBytes_append (keyword body bs : Bytes) :
    untaggedBytes keyword body ++ bs = untaggedBytes keyword (body ++ bs) := by
  simp [untaggedBytes]

/-- A response that is written is read back, whatever follows its line. -/
theorem parse_line (r : ResponseForm) (more : Bytes) :
    Response.parse (r.bytes ++ crlf ++ more) = .ok r.response := by
  have hline : Scan.AtLineEnd (crlf ++ more) := .inr rfl
  cases r with
  | tagged tag status word text =>
    have hbytes : bytes (.tagged tag status word text) ++ crlf = tag.bytes ++ ([Ascii.space] ++
        (word.bytes ++ (lineTail (text.map LineText.toBytes) ++ crlf))) := by
      simp [bytes]
    rw [hbytes]
    exact Response.parse_of_gives (Scan.gives_response_tagged tag word text) (P := fun _ => True)
      trivial
  | continuation text =>
    exact Response.parse_of_gives (Scan.gives_continuation text) (P := fun _ => True) trivial
  | remark status word text =>
    have hbody : (Scan.untaggedBody status.word).Gives (fun _ => True)
        (lineTail (text.map LineText.toBytes) ++ crlf)
        (some (.remark status (text.elim "" LineText.text))) := by
      rw [Scan.untaggedBody_status]
      exact (Scan.gives_remark text).map _
    rw [bytes, untaggedBytes_append]
    exact Response.parse_of_gives (Scan.gives_untagged status.atom word hbody
      fun _ _ => endsWord_lineTail _ _) trivial
  | search keyword nums =>
    have hbody := (Scan.gives_searchNums nums).map Untagged.search
    rw [← Scan.untaggedBody_search] at hbody
    rw [List.append_assoc]
    exact Response.parse_of_gives (Scan.gives_untagged searchAtom keyword hbody
      fun _ hrest => endsWord_flatMap_space _ nums hrest) hline
  | capabilities keyword caps =>
    have hbody := (Scan.gives_capabilities caps).map Untagged.capabilities
    rw [← Scan.untaggedBody_capability] at hbody
    rw [List.append_assoc]
    exact Response.parse_of_gives (Scan.gives_untagged capabilityAtom keyword hbody
      fun _ hrest => endsWord_flatMap_space _ caps hrest) hline
  | numbered n keyword word rest =>
    rw [bytes, untaggedBytes_append, List.cons_append, List.append_assoc]
    exact Response.parse_of_gives (Scan.gives_untagged_number n
      (Scan.gives_numbered n.toNat keyword word rest)) (P := fun _ => True) trivial
  | other keyword h word rest =>
    have hbody : (Scan.untaggedBody keyword.bytes).Gives (fun _ => True) (lineTail rest ++ crlf)
        (some (.other keyword.text)) := by
      rw [Scan.untaggedBody_other h]
      exact (Scan.gives_line (not_crlf_infix_lineTail rest)).map _
    rw [bytes, untaggedBytes_append]
    exact Response.parse_of_gives (Scan.gives_untagged keyword word hbody
      fun _ _ => endsWord_lineTail _ _) trivial

/-- A status in mixed case, and a text that begins with a space and holds single halves of a line
terminator. -/
example : Response.parse (utf8 "a.1 nO  [x\r] \"y\n\r\r\n* 1") =
    .ok (.tagged ⟨"a.1"⟩ .no " [x\r] \"y\n\r") := by
  decide +kernel

end ResponseForm

end ImapSearch
