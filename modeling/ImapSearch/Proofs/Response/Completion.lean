import ImapSearch.Proofs.Framing.Chunks
import ImapSearch.Proofs.InFlight.Addressed
import ImapSearch.Proofs.Response.Remark
import ImapSearch.Proofs.Session.Run

/-!
# ImapSearch.Proofs.Response.Completion

**The text of a completion.** A server completes a search with a line: the tag, a
status, and a text for people to read. The parser takes the text as it comes, up to
the line terminator (`Response.parse_completion`), and the search under the tag gets
its outcome (`Session.outcomes_receive_of_parse`).

The framing does not know what kind of response a line is. It looks for a literal
header at the end of every line, and takes a text that ends like one for the
announcement of data. So the line is delivered by itself if, and only if, the text
does not end in a literal header (`Framing.readResponse_line_iff`).
-/

namespace ImapSearch

/-- What stands in front of the text of a completion: the tag and the status. -/
def completionHead (tag : Tag) (status : Status) : Bytes :=
  utf8 tag.text ++ Ascii.space :: (status.word ++ [Ascii.space])

/-- The line that completes the search with this tag, without its terminator. -/
def completion (tag : Tag) (status : Status) (text : String) : Bytes :=
  completionHead tag status ++ utf8 text

/-- A text without a line break. -/
def IsOneLine (text : String) : Prop := ∀ b ∈ utf8 text, b ≠ Ascii.cr ∧ b ≠ Ascii.lf

/-! ### Tags -/

namespace TagSupply

theorem first_drop (supply : TagSupply) (n : Nat) : (supply.drop n).first = supply.first := by
  induction n generalizing supply with
  | zero => rfl
  | succ n ih => exact ih supply.advance

/-- The word behind the tags that begin with `A`. -/
def tagWord (number : Nat) : LetterWord where
  bytes := 0x41 :: Decimal.padded 4 number
  ne_nil := by simp
  isAtom := List.forall_mem_cons.mpr
    ⟨by decide, fun _ hb => isAtomByte_of_isDigit (Decimal.isDigit_of_mem_padded hb)⟩
  isLetter_head := forall_mem_head?_cons (by decide) _

theorem tag_eq {supply : TagSupply} (h : supply.first = 'A') :
    supply.tag = ⟨asciiText (tagWord supply.next).bytes⟩ := by
  rw [tag, h, asciiText, asciiText, tagWord, List.map_cons, String.ofList_cons]
  rfl

theorem upperCase_tagWord_ne (number : Nat) : upperCase (tagWord number).bytes ≠ utf8 "NIL" := by
  intro hnil
  have hhead : some (Ascii.upper 0x41) = some (0x4E : UInt8) := congrArg List.head? hnil
  exact absurd hhead (by decide)

/-- Every tag of the default supply is a word. -/
theorem exists_tagWord (n : Nat) : ∃ number, (drop {} n).tag = ⟨asciiText (tagWord number).bytes⟩ ∧
    utf8 (drop {} n).tag.text = (tagWord number).bytes := by
  have htag := tag_eq (first_drop {} n)
  refine ⟨_, htag, ?_⟩
  rw [htag]
  exact utf8_asciiText fun b hb => lt_of_isAtomByte ((tagWord _).isAtom b hb)

end TagSupply

/-! ### What the parser makes of the line -/

/-- In front of the text there are only words and spaces. -/
theorem isAtomByte_of_mem_completionHead {n : Nat} {status : Status} {b : UInt8}
    (h : b ∈ completionHead (TagSupply.drop {} n).tag status) : isAtomByte b ∨ b = Ascii.space := by
  obtain ⟨number, -, htag⟩ := TagSupply.exists_tagWord n
  simp only [completionHead, htag, List.mem_append, List.mem_cons, List.not_mem_nil, or_false] at h
  rcases h with hb | rfl | hb | rfl
  · exact .inl ((TagSupply.tagWord number).isAtom b hb)
  · exact .inr rfl
  · exact .inl (status.atom.isAtom b hb)
  · exact .inr rfl

theorem isOneLine_completion {n : Nat} {status : Status} {text : String} (h : IsOneLine text) :
    ∀ b ∈ completion (TagSupply.drop {} n).tag status text, b ≠ Ascii.cr ∧ b ≠ Ascii.lf := by
  refine List.forall_mem_append.mpr ⟨fun b hb => ?_, h⟩
  constructor <;>
    (rintro rfl; exact absurd (isAtomByte_of_mem_completionHead hb) (by decide))

theorem openBrace_not_mem_completionHead (n : Nat) (status : Status) :
    Ascii.openBrace ∉ completionHead (TagSupply.drop {} n).tag status :=
  fun h => absurd (isAtomByte_of_mem_completionHead h) (by decide)

theorem splitCrlf_eq_none {bs : Bytes} (h : ∀ b ∈ bs, b ≠ Ascii.cr ∧ b ≠ Ascii.lf) :
    splitCrlf bs = none := by
  induction bs with
  | nil => rfl
  | cons b bs ih =>
    obtain ⟨hb, hbs⟩ := List.forall_mem_cons.mp h
    rw [splitCrlf, if_neg fun hcut => hb.1 hcut.1, ih hbs]
    rfl

/-- The line of a completion, as a tagged response whose status is in upper case. -/
theorem Scan.gives_response_completion (number : Nat) (s : Status) {text : String}
    (h : IsOneLine text) :
    response.Gives (fun _ => True) ((TagSupply.tagWord number).bytes ++
      ([Ascii.space] ++ (s.word ++ (Ascii.space :: (utf8 text ++ crlf)))))
      (some (.tagged ⟨asciiText (TagSupply.tagWord number).bytes⟩ s text)) :=
  gives_response_tagged
    ((TagSupply.tagWord number).atom (TagSupply.upperCase_tagWord_ne number))
    ⟨s.word, s.atom.isUpper⟩ (some ⟨text, splitCrlf_eq_none_iff.mp (splitCrlf_eq_none h)⟩)

/-- The parser takes the text of a completion as it is. -/
theorem Response.parse_completion (n : Nat) (status : Status) {text : String} (h : IsOneLine text) :
    Response.parse (completion (TagSupply.drop {} n).tag status text ++ crlf) =
      .ok (.tagged (TagSupply.drop {} n).tag status text) := by
  obtain ⟨number, htag, hutf8⟩ := TagSupply.exists_tagWord n
  have hbytes : completion (TagSupply.drop {} n).tag status text ++ crlf =
      (TagSupply.tagWord number).bytes ++
        ([Ascii.space] ++ (status.word ++ (Ascii.space :: (utf8 text ++ crlf)))) ++ [] := by
    simp [completion, completionHead, hutf8]
  have hresponse := Scan.gives_response_completion number status h 0 [] trivial
  rw [Response.parse, Cursor.start, hbytes, hresponse, htag]

/-! ### What the session makes of the line -/

namespace Session

section Receive

variable {s : Session} {input : Bytes} {tag : Tag} {status : Status} {text : String} {e : Entry}
  (hparse : Response.parse input = .ok (.tagged tag status text))
  (he : s.inFlight.entries.find? (fun e => e.tag = tag) = some e)

include hparse he

/-- A completion takes out the first search under its tag and hands its outcome to the caller, if
the caller still waits. -/
theorem inFlight_receive_of_parse : (s.receive input).1.inFlight = { s.inFlight with
    entries := changeFirst (fun e => e.tag = tag) (fun _ => none) s.inFlight.entries
    delivered := s.inFlight.delivered ++
      if e.id ∈ s.inFlight.abandoned then [] else [(e.id, status.outcome text e.data)] } := by
  have hop : (InFlight.Op.complete tag status text).addressee? = some tag := rfl
  have hchange : InFlight.Op.change (.complete tag status text) = fun _ => none := rfl
  rw [receive_of_ok hparse, inFlight_apply]
  show s.inFlight.step (.complete tag status text) = _
  rw [InFlight.step_of_addressee? hop, InFlight.answers, he, hchange]
  by_cases hgone : e.id ∈ s.inFlight.abandoned <;> simp [InFlight.Op.answer?, hgone]

/-- Of all callers only the one whose search is completed gets an outcome. -/
theorem outcomes_receive_eq (id : Nat) : (s.receive input).1.inFlight.outcomes id =
    s.inFlight.outcomes id ++
      if id = e.id ∧ id ∉ s.inFlight.abandoned then [status.outcome text e.data] else [] := by
  rw [inFlight_receive_of_parse hparse he, InFlight.outcomes, InFlight.outcomes,
    List.filter_append, List.map_append]
  by_cases hid : e.id = id
  · subst hid
    by_cases hgone : e.id ∈ s.inFlight.abandoned <;> simp [hgone]
  · by_cases hgone : e.id ∈ s.inFlight.abandoned <;> simp [hgone, hid, Ne.symm hid]

theorem outcomes_receive_of_parse (hwaits : e.id ∉ s.inFlight.abandoned) :
    (s.receive input).1.inFlight.outcomes e.id =
      s.inFlight.outcomes e.id ++ [status.outcome text e.data] := by
  rw [outcomes_receive_eq hparse he, if_pos ⟨rfl, hwaits⟩]

end Receive

end Session

namespace Framing

/-! ### What the framing makes of the line -/

/-- Only a brace can begin a literal header. -/
theorem announces_append_iff {before content : Bytes} (h : Ascii.openBrace ∉ before) (size : Nat) :
    Announces (before ++ content) size ↔ Announces content size := by
  constructor
  · rintro ⟨front, digits, mark, hfront, hmark, hsize⟩
    rcases List.append_eq_append_iff.mp hfront with
      ⟨between, rfl, hcontent⟩ | ⟨between, rfl, hheader⟩
    · exact ⟨between, digits, mark, hcontent, hmark, hsize⟩
    · cases between with
      | nil => exact ⟨[], digits, mark, hheader.symm, hmark, hsize⟩
      | cons b between =>
        rw [List.cons_append, List.cons.injEq] at hheader
        exact absurd (by simp [hheader.1]) h
  · rintro ⟨front, digits, mark, rfl, hmark, hsize⟩
    exact ⟨before ++ front, digits, mark, by simp, hmark, hsize⟩

/-- A line that announces no literal is a response, and one that does is never a response by
itself. -/
theorem readResponse_line_iff {settings : Settings} {s : ByteSource} {content more : Bytes}
    (hbytes : s.bytes = content ++ (crlf ++ more))
    (hline : ∀ b ∈ content, b ≠ Ascii.cr ∧ b ≠ Ascii.lf)
    (hfits : content.length < settings.maxLine) :
    (∃ rest, readResponse settings s = .complete (content ++ crlf) rest ∧ rest.bytes = more) ↔
      ¬ ∃ size, Announces content size := by
  have hsplit : splitCrlf ([] ++ s.bytes) = some (content, more) := by
    rw [List.nil_append, hbytes, splitCrlf_append_terminator (splitCrlf_eq_none hline)]
  obtain ⟨afterLine, hread, hafter, -⟩ := readLine_of_some rfl hsplit hfits
  rw [readResponse_of_line hread]
  cases hsize : announcedSize? (content ++ crlf) with
  | none =>
    refine ⟨fun _ => ?_, fun _ => ⟨afterLine, rfl, hafter⟩⟩
    rintro ⟨size, hannounces⟩
    rw [hannounces.announcedSize?] at hsize
    cases hsize
  | some size =>
    refine ⟨?_, fun hnone => absurd ⟨size, announces_of_announcedSize? hsize⟩ hnone⟩
    rintro ⟨rest, hcomplete, -⟩
    dsimp only at hcomplete
    split at hcomplete
    next data afterData _ =>
      -- What is read behind the data is one byte at least.
      obtain ⟨further, hfurther, hvalue⟩ := Arrival.exists_of_prepend hcomplete
      rw [List.append_assoc, List.append_right_eq_self] at hvalue
      exact absurd (List.append_eq_nil_iff.mp hvalue).2 (bytes_of_readResponse hfurther).1
    next hstopped => exact (hstopped _ _ hcomplete).elim

end Framing

/-- A completion under a tag of the default supply is delivered as soon as its line has arrived if,
and only if, its text does not end in a literal header; whatever the rest of the stream and its
chunks. The parser takes the text as it is in any case, and the outcome reaches the caller of the
first search under the tag. -/
theorem completion_delivered_iff (n : Nat) (status : Status) {text : String} (h : IsOneLine text)
    {settings : Settings}
    (hfits : (completion (TagSupply.drop {} n).tag status text).length < settings.maxLine)
    {s : ByteSource} {more : Bytes}
    (hbytes : s.bytes = completion (TagSupply.drop {} n).tag status text ++ (crlf ++ more)) :
    let tag := (TagSupply.drop {} n).tag
    let response := completion tag status text ++ crlf
    ((∃ rest, Framing.readResponse settings s = .complete response rest ∧ rest.bytes = more) ↔
      ¬ ∃ size, Framing.Announces (utf8 text) size) ∧
    Response.parse response = .ok (.tagged tag status text) ∧
    ∀ (session : Session) (e : Entry),
      session.inFlight.entries.find? (fun e => e.tag = tag) = some e →
      e.id ∉ session.inFlight.abandoned →
      (session.receive response).1.inFlight.outcomes e.id =
        session.inFlight.outcomes e.id ++ [status.outcome text e.data] := by
  intro tag response
  have hparse := Response.parse_completion n status h
  refine ⟨?_, hparse, fun session e he hwaits =>
    Session.outcomes_receive_of_parse hparse he hwaits⟩
  rw [Framing.readResponse_line_iff hbytes (isOneLine_completion h) hfits]
  simp only [completion,
    Framing.announces_append_iff (openBrace_not_mem_completionHead n status)]

/-- A text that is delivered though the stream is cut inside of the terminator, and one for which
the framing waits for more. -/
theorem completion_delivered_iff_done :
    (∃ rest, Framing.readResponse {}
        { chunks := [utf8 "A0000 OK do", utf8 "ne\r", utf8 "\n* 1"] } =
      .complete (utf8 "A0000 OK done\r\n") rest ∧ rest.bytes = utf8 "* 1") ∧
    ¬ ∃ rest, Framing.readResponse {}
        { chunks := [utf8 "A0000 OK done \x7b3\x7d\r\n"] } =
      .complete (utf8 "A0000 OK done \x7b3\x7d\r\n") rest ∧ rest.bytes = [] := by
  constructor
  · have htext : IsOneLine "done" := by unfold IsOneLine; decide +kernel
    have hfits : (completion (TagSupply.drop {} 0).tag .ok "done").length <
        ({} : Settings).maxLine := by decide +kernel
    have hbytes : ByteSource.bytes
        { chunks := [utf8 "A0000 OK do", utf8 "ne\r", utf8 "\n* 1"] } =
        completion (TagSupply.drop {} 0).tag .ok "done" ++ (crlf ++ utf8 "* 1") := by
      decide +kernel
    have hplain : ¬ ∃ size, Framing.Announces (utf8 "done") size := by
      rintro ⟨size, hannounces⟩
      have hnone : Framing.announcedSize? (utf8 "done" ++ crlf) = none := by decide +kernel
      rw [hannounces.announcedSize?] at hnone
      cases hnone
    exact (completion_delivered_iff 0 .ok htext hfits hbytes).1.mpr hplain
  · have htext : IsOneLine "done \x7b3\x7d" := by unfold IsOneLine; decide +kernel
    have hfits : (completion (TagSupply.drop {} 0).tag .ok "done \x7b3\x7d").length <
        ({} : Settings).maxLine := by decide +kernel
    have hbytes : ByteSource.bytes { chunks := [utf8 "A0000 OK done \x7b3\x7d\r\n"] } =
        completion (TagSupply.drop {} 0).tag .ok "done \x7b3\x7d" ++ (crlf ++ []) := by
      decide +kernel
    have hheader : Framing.Announces (utf8 "done \x7b3\x7d") 3 :=
      ⟨utf8 "done ", utf8 "3", [], by decide +kernel, .inl rfl, by decide +kernel⟩
    intro hcomplete
    exact (completion_delivered_iff 0 .ok htext hfits hbytes).1.mp hcomplete ⟨3, hheader⟩

end ImapSearch
