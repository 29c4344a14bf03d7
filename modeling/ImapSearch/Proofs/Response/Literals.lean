import ImapSearch.Proofs.Framing.Segments
import ImapSearch.Proofs.Response.Walk

/-!
# ImapSearch.Proofs.Response.Literals

**Framing and reading agree on literals.** Two readers look for literals in the bytes that
a server sends. The framing looks at a line from behind, and lets the data of a literal
follow where the line ends in a header. The reader of tokens goes forward, and takes the
data of a literal where it comes upon a header. A line may hold what looks like a header
inside a quoted string or a text, and data may hold lines.

The two agree because the reader of tokens is always in the content of a framed line
(`Framing.InSomeLine`). A token leads from there to such a place again, or it is the line
terminator, behind which nothing is read (`Framing.Framed.token`). So on a response that
was framed, every literal that is read is one that was framed, and none is incomplete
(`Response.parse_framed`).
-/

namespace ImapSearch

namespace Framing

/-! ### Places in a framed response -/

/-- Where the lines of a response stand: how many bytes are in front of a line, the line, and the
bytes behind it. -/
inductive LineAt (segments : List Segment) (last : Bytes) : Nat → Bytes → Bytes → Prop
  | segment {before after : List Segment} {segment : Segment}
      (h : segments = before ++ segment :: after) :
      LineAt segments last (before.flatMap Segment.bytes).length segment.line
        (segment.data ++ (after.flatMap Segment.bytes ++ last))
  | last : LineAt segments last (segments.flatMap Segment.bytes).length last []

/-- A place in the content of a line of a response, or at its end. -/
def InSomeLine (segments : List Segment) (last : Bytes) (c : Cursor) : Prop :=
  ∃ pos content beyond, LineAt segments last pos (content ++ crlf) beyond ∧
    c.InLine pos content beyond

/-- A literal that was framed: its header ends the line of a segment, and its data are those of the
segment. The cursor stands in front of the header. -/
def LiteralAt (segments : List Segment) (last : Bytes) (c : Cursor) (data : Bytes) : Prop :=
  ∃ before after read header,
    segments = before ++ ⟨read ++ header ++ crlf, data⟩ :: after ∧
    headerSize? header = some data.length ∧
    c = ⟨(before.flatMap Segment.bytes ++ read).length,
      header ++ crlf ++ (data ++ (after.flatMap Segment.bytes ++ last))⟩

/-- What a token can be in a response: no more than an error that is not about missing data, a token
that leads on, or the end of a line. -/
inductive TokenInResponse (segments : List Segment) (last : Bytes) (c : Cursor) :
    EStateM.Result Error Cursor Token → Prop
  | fails {e : Error} {d : Cursor} (h : ¬ e.IsIncomplete) :
      TokenInResponse segments last c (.error e d)
  | goesOn {t : Token} {d : Cursor} (h : InSomeLine segments last d)
      (hliteral : ∀ data, t = .literal data → LiteralAt segments last c data) :
      TokenInResponse segments last c (.ok t d)
  | lineEnd {d : Cursor} : TokenInResponse segments last c (.ok .lineEnd d)

/-- A header that ends the content of a line announces its size. -/
theorem announcedSize?_of_headerSize? {header : Bytes} {size : Nat}
    (h : headerSize? header = some size) (read : Bytes) :
    announcedSize? (read ++ header ++ crlf) = some size := by
  obtain ⟨digits, mark, rfl, hmark, hsize⟩ := eq_of_headerSize? h
  exact Announces.announcedSize? ⟨read, digits, mark, rfl, hmark, hsize⟩

namespace Framed

variable {settings : Settings} {s rest : ByteSource} {segments : List Segment} {last : Bytes}

/-- The terminator of a line is the only one in it. -/
theorem not_crlf_infix (h : Framed settings s segments last rest) {pos : Nat}
    {content beyond : Bytes} (hline : LineAt segments last pos (content ++ crlf) beyond) :
    ¬ crlf <:+: content := by
  have hisLine : IsLine (content ++ crlf) := by
    generalize content ++ crlf = line at hline
    cases hline with
    | segment hsegments => exact (h.valid _ (by simp [hsegments])).1
    | last => exact h.isLine_last.1
  obtain ⟨content', heq, hcontent⟩ := hisLine
  rwa [List.append_cancel_right heq]

/-- A line that announces a literal is that of a segment, and the data of the segment follow. -/
theorem exists_segment (h : Framed settings s segments last rest) {pos size : Nat}
    {line beyond : Bytes} (hline : LineAt segments last pos line beyond)
    (hsize : announcedSize? line = some size) :
    ∃ before after data, segments = before ++ ⟨line, data⟩ :: after ∧ size = data.length ∧
      pos = (before.flatMap Segment.bytes).length ∧
      beyond = data ++ (after.flatMap Segment.bytes ++ last) := by
  cases hline with
  | last =>
    rw [h.isLine_last.2] at hsize
    cases hsize
  | @segment before after segment hsegments =>
    rw [(h.valid segment (by simp [hsegments])).2] at hsize
    exact ⟨before, after, segment.data, hsegments, (Option.some.inj hsize).symm, rfl, rfl⟩

/-- In front of every segment, and behind the last one, a line begins. -/
theorem inSomeLine_after (h : Framed settings s segments last rest) (before after : List Segment)
    (hsegments : segments = before ++ after) :
    InSomeLine segments last
      ⟨(before.flatMap Segment.bytes).length, after.flatMap Segment.bytes ++ last⟩ := by
  cases after with
  | nil =>
    obtain ⟨content, rfl, -⟩ := h.isLine_last.1
    rw [List.append_nil] at hsegments
    subst hsegments
    refine ⟨_, content, [], .last, ?_⟩
    have hstart := Cursor.inLine_start (segments.flatMap Segment.bytes).length content []
    rwa [List.append_nil] at hstart
  | cons segment after =>
    obtain ⟨line, data⟩ := segment
    obtain ⟨content, hcontent, -⟩ := (h.valid ⟨line, data⟩ (by simp [hsegments])).1
    dsimp only at hcontent
    subst hcontent
    refine ⟨_, content, _, .segment hsegments, ?_⟩
    have hstart := Cursor.inLine_start (before.flatMap Segment.bytes).length content
      (data ++ (after.flatMap Segment.bytes ++ last))
    have hbytes : (⟨content ++ crlf, data⟩ :: after).flatMap Segment.bytes ++ last =
        content ++ crlf ++ (data ++ (after.flatMap Segment.bytes ++ last)) := by
      simp [Segment.bytes]
    rwa [hbytes]

/-- One token: from a place in a line it leads to such a place, and a literal is a framed one. -/
theorem token (h : Framed settings s segments last rest) {c : Cursor}
    (hc : InSomeLine segments last c) : TokenInResponse segments last c (Scan.token c) := by
  obtain ⟨pos, content, beyond, hline, read, left, rfl, rfl⟩ := hc
  have hleft : ¬ crlf <:+: left := fun hcrlf =>
    h.not_crlf_infix hline (hcrlf.trans (List.suffix_append read left).isInfix)
  have htoken := Scan.token_inLine hleft (pos + read.length) beyond
  generalize Scan.token ⟨pos + read.length, left ++ crlf ++ beyond⟩ = result at htoken ⊢
  cases htoken with
  | fails hfault => exact .fails hfault
  | inside hd hliteral =>
    exact .goesOn ⟨pos, read ++ left, beyond, hline, hd.append read⟩
      fun data hdata => absurd hdata (hliteral data)
  | lineEnd => exact .lineEnd
  | @literal data after' hsize hbeyond =>
    -- What is left of the content is a header, so the line announces these data.
    obtain ⟨before, after, data', hsegments, hlength, rfl, hbeyond'⟩ :=
      h.exists_segment hline (announcedSize?_of_headerSize? hsize read)
    obtain ⟨rfl, rfl⟩ := List.append_inj (hbeyond.symm.trans hbeyond') hlength
    refine .goesOn ?_ ?_
    · have hnext := h.inSomeLine_after (before ++ [⟨read ++ left ++ crlf, data⟩]) after
        (by simp [hsegments])
      have hpos :
          ((before ++ [Segment.mk (read ++ left ++ crlf) data]).flatMap Segment.bytes).length =
          (before.flatMap Segment.bytes).length + read.length + (left ++ crlf ++ data).length := by
        simp [Segment.bytes]
        omega
      rwa [hpos] at hnext
    · rintro _ ⟨⟩
      show LiteralAt segments last _ data
      refine ⟨before, after, read, left, hsegments, hsize, ?_⟩
      rw [hbeyond, List.length_append]
  | incomplete hsize hshort =>
    obtain ⟨before, after, data, -, rfl, -, rfl⟩ :=
      h.exists_segment hline (announcedSize?_of_headerSize? hsize read)
    rw [List.length_append] at hshort
    omega

/-- A run of tokens: it ends at a place in a line, and its literals are framed ones. -/
theorem walk (h : Framed settings s segments last rest) {c d : Cursor}
    {tokens : List (Cursor × Token)} (hwalk : Scan.Walk c tokens d)
    (hc : InSomeLine segments last c) :
    InSomeLine segments last d ∧
      ∀ c data, (c, .literal data) ∈ tokens → LiteralAt segments last c data := by
  induction hwalk with
  | nil => exact ⟨hc, fun _ _ hmem => absurd hmem List.not_mem_nil⟩
  | @cons c d e t tokens ht hne _ ih =>
    have hstep := h.token hc
    rw [ht] at hstep
    cases hstep with
    | lineEnd => exact absurd rfl hne
    | goesOn hd hliteral =>
      obtain ⟨he, hrest⟩ := ih hd
      refine ⟨he, fun c' data hmem => ?_⟩
      rcases List.mem_cons.mp hmem with heq | hmem
      · obtain ⟨rfl, hdata⟩ := Prod.mk.inj heq
        exact hliteral data hdata.symm
      · exact hrest c' data hmem

end Framed

end Framing

/-! ### Reading what was framed -/

namespace Scan

/-- A scan that comes to a place in a line and ends there does not miss the data of a literal. -/
theorem Ending.not_isIncomplete {α : Type} {text : Bool} {settings : Settings} {s rest : ByteSource}
    {segments : List Framing.Segment} {last : Bytes} {c d : Cursor} {e : Error}
    (h : Framing.Framed settings s segments last rest) (hc : Framing.InSomeLine segments last c)
    (hend : Ending text c (.error e d : EStateM.Result Error Cursor α)) : ¬ e.IsIncomplete := by
  cases hend with
  | fault hfault => exact hfault
  | lineEnd _ hfault => exact hfault
  | noToken ht =>
    have htoken := h.token hc
    rw [ht] at htoken
    cases htoken with
    | fails hfault => exact hfault

end Scan

namespace Response

open Framing

/-- **Framing and reading agree on literals**: on a response that was framed, whatever the bytes of
the server, their chunks and the limits are, reading never fails because the data of a literal are
incomplete. It goes token by token from the beginning of the response, and every literal among the
tokens is one that was framed. -/
theorem parse_framed {settings : Settings} {s rest : ByteSource} {response : Bytes}
    (h : readResponse settings s = .complete response rest) :
    (∀ position, parse response ≠ .error (.malformed position .literalIncomplete)) ∧
    ∃ segments last, Framed settings s segments last rest ∧
      response = segments.flatMap Segment.bytes ++ last ∧
      (∃ tokens d, Scan.Walk (.start response) tokens d ∧
        Scan.Ending true d (Scan.response (.start response))) ∧
      ∀ tokens d, Scan.Walk (.start response) tokens d →
        ∀ c data, (c, .literal data) ∈ tokens → LiteralAt segments last c data := by
  obtain ⟨segments, last, hframed, rfl⟩ := exists_framed h
  have hstart : InSomeLine segments last (.start (segments.flatMap Segment.bytes ++ last)) :=
    hframed.inSomeLine_after [] segments rfl
  obtain ⟨tokens, d, hwalk, hend⟩ :=
    Scan.walks_response (.start (segments.flatMap Segment.bytes ++ last))
  refine ⟨fun position hparse => ?_, segments, last, hframed, rfl, ⟨tokens, d, hwalk, hend⟩,
    fun tokens d hwalk => (hframed.walk hwalk hstart).2⟩
  rw [parse] at hparse
  cases hresult : Scan.response (.start (segments.flatMap Segment.bytes ++ last)) with
  | ok r after =>
    rw [hresult] at hparse
    cases hparse
  | error e after =>
    rw [hresult] at hparse hend
    cases hparse
    exact hend.not_isIncomplete hframed (hframed.walk hwalk hstart).1 ⟨position, rfl⟩

/-- The name of a search as a literal whose data look like a header themselves. -/
theorem parse_framed_headerInData :
    ∃ segments last rest,
      Framed {} (.ofChunks [utf8 "* ESEARCH (TAG {5}\r", utf8 "\n{9}", utf8 "\r\n) COUNT 2\r\n"])
        segments last rest ∧
      LiteralAt segments last ⟨15, utf8 "{5}\r\n{9}\r\n) COUNT 2\r\n"⟩ (utf8 "{9}\r\n") := by
  have hread : readResponse {}
      (.ofChunks [utf8 "* ESEARCH (TAG {5}\r", utf8 "\n{9}", utf8 "\r\n) COUNT 2\r\n"]) =
        .complete (utf8 "* ESEARCH (TAG {5}\r\n{9}\r\n) COUNT 2\r\n")
          { chunks := [[]], ended := true } := by
    with_unfolding_all rfl
  have hwalk : Scan.Walk (.start (utf8 "* ESEARCH (TAG {5}\r\n{9}\r\n) COUNT 2\r\n"))
      [(⟨0, utf8 "* ESEARCH (TAG {5}\r\n{9}\r\n) COUNT 2\r\n"⟩, .untagged),
        (⟨1, utf8 " ESEARCH (TAG {5}\r\n{9}\r\n) COUNT 2\r\n"⟩, .space),
        (⟨2, utf8 "ESEARCH (TAG {5}\r\n{9}\r\n) COUNT 2\r\n"⟩, .atom (utf8 "ESEARCH")),
        (⟨9, utf8 " (TAG {5}\r\n{9}\r\n) COUNT 2\r\n"⟩, .space),
        (⟨10, utf8 "(TAG {5}\r\n{9}\r\n) COUNT 2\r\n"⟩, .listStart),
        (⟨11, utf8 "TAG {5}\r\n{9}\r\n) COUNT 2\r\n"⟩, .atom (utf8 "TAG")),
        (⟨14, utf8 " {5}\r\n{9}\r\n) COUNT 2\r\n"⟩, .space),
        (⟨15, utf8 "{5}\r\n{9}\r\n) COUNT 2\r\n"⟩, .literal (utf8 "{9}\r\n"))]
      ⟨25, utf8 ") COUNT 2\r\n"⟩ := by
    iterate 8 refine .cons rfl (by decide) ?_
    exact .nil _
  obtain ⟨-, segments, last, hframed, -, -, hliterals⟩ := parse_framed hread
  exact ⟨segments, last, _, hframed, hliterals _ _ hwalk _ _ (by simp)⟩

end Response

end ImapSearch
