import ImapSearch.Proofs.Response.Code
import ImapSearch.Session

/-!
# ImapSearch.Proofs.Session.Announcement

**Both ways of announcing capabilities.** A server says what it can do in a response of
its own, or in a code at the beginning of a remark, as in its greeting (`Announcement`).
The response is read token by token, and the code is cut out of a text. For words that
are atoms the two come to the same list, and nothing else in the session changes
(`Announcement.receive_bytes`).
-/

namespace ImapSearch

/-- The statuses under which a remark may announce capabilities. -/
inductive GreetingStatus
  | ok
  | preauth

/-- The status as one of all statuses. -/
def GreetingStatus.status : GreetingStatus → Status
  | .ok => .ok
  | .preauth => .preauth

/-- A way of announcing capabilities. The keywords may be written in any case. -/
inductive Announcement
  /-- A response of its own. -/
  | response (keyword : Spelling (utf8 "CAPABILITY"))
  /-- A code in front of the text of a remark. -/
  | code (status : GreetingStatus) (word : Spelling status.status.word)
      (keyword : Spelling (utf8 "CAPABILITY")) (text : LineBytes)

namespace Announcement

/-- The code and the text of a remark. -/
def remarkBytes (keyword : Spelling (utf8 "CAPABILITY")) (words : List PlainAtom)
    (text : LineBytes) : Bytes :=
  Ascii.openBracket :: (spacedWords keyword.bytes words ++
    Ascii.closeBracket :: Ascii.space :: text.bytes)

/-- The bytes that announce the words. -/
def bytes (words : List PlainAtom) : Announcement → Bytes
  | .response keyword =>
    [Ascii.star, Ascii.space] ++ spacedWords keyword.bytes words ++ crlf
  | .code _ word keyword text =>
    [Ascii.star, Ascii.space] ++ word.bytes ++ Ascii.space :: remarkBytes keyword words text ++ crlf

end Announcement

/-! ### The words as tokens -/

namespace Scan

theorem gives_capabilities_words (words : List PlainAtom) :
    capabilities.Gives AtLineEnd (words.flatMap fun w => Ascii.space :: w.bytes)
      (some (words.map fun w => Capability.ofText w.text)) := by
  have hitem : ∀ w : PlainAtom,
      capability.Gives EndsWord w.bytes (some (Capability.ofText w.text)) :=
    fun w => (gives_plainAtom w).finish (gives_pure _)
  exact gives_spaced (fun w => (hitem w).map some) (fun _ => endsWord_cons (by decide) _)
    (fun _ hrest => hrest.endsWord) (fun _ hrest => hrest.head?_ne_space) words

/-- The text of a remark is the rest of its line. -/
theorem gives_remark_bytes {P : Bytes → Prop} (text : LineBytes) :
    remark.Gives P (Ascii.space :: text.bytes ++ crlf) (some (Text.lossy text.bytes)) :=
  (gives_eat Ascii.space).before ((gives_line text.noTerminator).map Text.lossy)

end Scan

/-! ### The words in a line -/

/-- Bytes without a carriage return do not begin a line terminator. -/
theorem not_crlf_infix_append {bs rest : Bytes} (hbs : Ascii.cr ∉ bs) (hrest : ¬ crlf <:+: rest) :
    ¬ crlf <:+: bs ++ rest := by
  induction bs with
  | nil => exact hrest
  | cons b bs ih =>
    rw [List.mem_cons, not_or] at hbs
    rw [List.cons_append, List.infix_cons_iff, not_or]
    refine ⟨?_, ih hbs.2⟩
    rintro ⟨tail, htail⟩
    exact hbs.1 (List.cons.inj htail).1

namespace Announcement

theorem cr_notMem_remarkBytes (keyword : Spelling (utf8 "CAPABILITY")) (words : List PlainAtom) :
    Ascii.cr ∉ Ascii.openBracket :: (spacedWords keyword.bytes words ++
      [Ascii.closeBracket, Ascii.space]) := by
  intro hcr
  rcases List.mem_cons.mp hcr with hcr | hcr
  · exact absurd hcr (by decide)
  · rcases List.mem_append.mp hcr with hcr | hcr
    · rcases mem_spacedWords (capabilityAtom.spelled keyword).toWord hcr with h | h
      · exact absurd h (by decide)
      · exact absurd h (by decide)
    · exact absurd hcr (by decide)

/-- The code and the text of a remark, as one line. -/
def remarkLine (keyword : Spelling (utf8 "CAPABILITY")) (words : List PlainAtom)
    (text : LineBytes) : LineBytes where
  bytes := remarkBytes keyword words text
  noTerminator := by
    have hline := not_crlf_infix_append (cr_notMem_remarkBytes keyword words) text.noTerminator
    rw [List.cons_append, List.append_assoc] at hline
    exact hline

theorem parse_response (keyword : Spelling (utf8 "CAPABILITY")) (words : List PlainAtom) :
    Response.parse (bytes words (.response keyword)) =
      .ok (.untagged (.capabilities (words.map fun w => .ofText w.text))) := by
  have hbody := (Scan.gives_capabilities_words words).map Untagged.capabilities
  rw [← Scan.untaggedBody_capability] at hbody
  have hends : ∀ rest, Scan.AtLineEnd rest →
      EndsWord ((words.flatMap fun w => Ascii.space :: w.bytes) ++ rest) :=
    fun _ hrest => endsWord_flatMap_space _ words hrest
  exact Response.parse_of_gives (Scan.gives_untagged capabilityAtom keyword hbody hends) (.inr rfl)

theorem parse_code (status : GreetingStatus) (word : Spelling status.status.word)
    (keyword : Spelling (utf8 "CAPABILITY")) (words : List PlainAtom) (text : LineBytes) :
    Response.parse (bytes words (.code status word keyword text)) =
      .ok (.untagged (.remark status.status (Text.lossy (remarkBytes keyword words text)))) := by
  have hbody : (Scan.untaggedBody status.status.word).Gives (fun _ => True)
      (Ascii.space :: remarkBytes keyword words text ++ crlf)
      (some (.remark status.status (Text.lossy (remarkBytes keyword words text)))) := by
    rw [Scan.untaggedBody_status]
    exact (Scan.gives_remark_bytes (remarkLine keyword words text)).map _
  have hbytes : bytes words (.code status word keyword text) =
      ResponseForm.untaggedBytes word.bytes
        (Ascii.space :: remarkBytes keyword words text ++ crlf) ++ [] := by
    simp [bytes, ResponseForm.untaggedBytes]
  rw [hbytes]
  exact Response.parse_of_gives (Scan.gives_untagged status.status.atom word hbody
    fun _ _ => endsWord_cons (by decide) _) trivial

/-- However it is announced, a list of words is what the session knows of the server from then on:
each word as the capability that it names, in order. Nothing else changes. -/
theorem receive_bytes (a : Announcement) (words : List PlainAtom) (s : Session) :
    ∃ r, s.receive (a.bytes words) =
      ({ s with capabilities := words.map fun w => .ofText w.text }, .ok r) := by
  cases a with
  | response keyword =>
    refine ⟨.untagged (.capabilities (words.map fun w => .ofText w.text)), ?_⟩
    rw [Session.receive, parse_response]
    rfl
  | code status word keyword text =>
    have hcode : announcedCapabilities? (Text.lossy (remarkBytes keyword words text)) =
        some (words.map fun w => Capability.ofText w.text) :=
      announcedCapabilities?_code keyword words _
    refine ⟨.untagged (.remark status.status (Text.lossy (remarkBytes keyword words text))), ?_⟩
    rw [Session.receive, parse_code]
    cases status <;> simp [Session.apply, Session.applyUntagged, GreetingStatus.status, hcode]

/-- Known names in mixed case, an unknown one with a bracket in it, and a text that is not UTF-8. -/
example :
    (Session.receive {} (utf8 "* preAuth [capability literal+ X[1 imap4REV1] " ++ [0xFF, 0x5D] ++
      crlf)).1.capabilities = [.literalPlus, .other "X[1", .rev1] := by
  decide +kernel

end Announcement

end ImapSearch
