import ImapSearch.Proofs.Response.Completion
import ImapSearch.Proofs.Response.FirstToken
import ImapSearch.Proofs.Session.Pipeline

/-!
# ImapSearch.Proofs.Session.Tags

**Tags and the completions that name them.** The tags of a session are different from
each other until the numbers begin anew (`Session.nodup_issuedTags`), and the searches in
flight carry some of them, in the order of issue (`Session.tags_entries_sublist`). So a
tag names one search in flight at most.

Whether a completion can name a tag is decided by the character that the tags begin with.
Behind an ASCII atom character the digits make the tag an atom, unless the character is a
digit itself or punctuation (`TagSupply.isUsable`). A completion then ends its search and
no other. With any other character it is no tagged response, and nothing comes of it
(`Session.completions_come_home`).
-/

namespace ImapSearch

/-! ### Tags as bytes -/

namespace TagSupply

/-- Whether an atom can begin with the character and be the tag of a command: an ASCII atom
character, but neither a digit nor punctuation. -/
def isUsable (first : Char) : Bool :=
  first.toNat < 0x80 && isAtomByte first.toUInt8 && !Ascii.isDigit first.toUInt8
    && first.toUInt8 != Ascii.plus && first.toUInt8 != Ascii.openBracket

theorem isUsable_iff {first : Char} : isUsable first ↔ first.toNat < 0x80 ∧
    isAtomByte first.toUInt8 ∧ ¬ Ascii.isDigit first.toUInt8 ∧ first.toUInt8 ≠ Ascii.plus ∧
      first.toUInt8 ≠ Ascii.openBracket := by
  simp [isUsable, and_assoc]

theorem next_drop {supply : TagSupply} (h : supply.next < period) (n : Nat) :
    (supply.drop n).next = (supply.next + n) % period := by
  induction n generalizing supply with
  | zero => exact (Nat.mod_eq_of_lt h).symm
  | succ n ih =>
    have hnext : supply.advance.next = (supply.next + 1) % period := rfl
    have hlt : supply.advance.next < period := Nat.mod_lt _ (by decide)
    rw [drop, ih hlt, hnext, Nat.mod_add_mod, Nat.add_right_comm, Nat.add_assoc]

end TagSupply

theorem issuedTag_eq (first : Char) (k : Nat) : issuedTag first k =
    ⟨String.singleton first ++ asciiText (Decimal.padded 4 (k % TagSupply.period))⟩ := by
  have hnext : (TagSupply.drop { first } k).next = k % TagSupply.period := by
    have hstart : 0 < TagSupply.period := by decide
    rw [TagSupply.next_drop hstart, Nat.zero_add]
  rw [issuedTag, TagSupply.tag, TagSupply.first_drop, hnext]

/-- The bytes of a tag: its first character and its digits. -/
theorem utf8_issuedTag (first : Char) (k : Nat) : utf8 (issuedTag first k).text =
    String.utf8EncodeChar first ++ Decimal.padded 4 (k % TagSupply.period) := by
  have hdigits : ∀ b ∈ Decimal.padded 4 (k % TagSupply.period), b < 0x80 := fun b hb =>
    lt_of_isAtomByte (isAtomByte_of_isDigit (Decimal.isDigit_of_mem_padded hb))
  have hfirst : utf8 (String.singleton first) = String.utf8EncodeChar first := by
    rw [utf8_eq_flatMap]
    simp
  rw [issuedTag_eq, utf8_append, utf8_asciiText hdigits, hfirst]

/-- Tags are different until the numbers begin anew. -/
theorem issuedTag_inj {first : Char} {j k : Nat} (hj : j < TagSupply.period)
    (hk : k < TagSupply.period) (h : issuedTag first j = issuedTag first k) : j = k := by
  have hbytes := congrArg (fun tag : Tag => utf8 tag.text) h
  simp only [utf8_issuedTag, List.append_cancel_left_eq] at hbytes
  have hread := congrArg Decimal.decode? hbytes
  rw [Decimal.decode?_padded, Decimal.decode?_padded, Option.some.injEq, Nat.mod_eq_of_lt hj,
    Nat.mod_eq_of_lt hk] at hread
  exact hread

/-! ### The tags of a run -/

namespace Session

/-- The tag that an event gives to a search, which may be refused. -/
def tagOf? (s : Session) : Event → Option Tag
  | .issue command => some (s.issue command).2.tag
  | _ => none

/-- The tags of all searches that the events issue, refused ones included. -/
def issuedTags (s : Session) : List Event → List Tag
  | [] => []
  | event :: events => (s.tagOf? event).toList ++ (s.step event).issuedTags events

theorem tag_issue (s : Session) (command : Command) :
    (s.issue command).2.tag = s.tags.tag ∧ (s.issue command).1.tags = s.tags.advance := by
  unfold issue
  cases s.refusedLiteral? command <;> exact ⟨rfl, rfl⟩

/-- Only a search that is issued takes up a tag. -/
theorem tags_step (s : Session) (event : Event) :
    (s.step event).tags = s.tags.drop (s.tagOf? event).toList.length := by
  cases event with
  | issue command => exact (s.tag_issue command).2
  | receive input =>
    show (s.receive input).1.tags = s.tags
    cases h : Response.parse input with
    | ok r => rw [receive_of_ok h, tags_apply]
    | error e => rw [receive_of_error h]
  | close => rfl
  | abandon id =>
    simp only [step]
    split <;> rfl

/-- The tags of a run are those that the supply gives out, one after the other. -/
theorem issuedTags_eq_map {first : Char} {k : Nat} {s : Session}
    (h : s.tags = TagSupply.drop { first } k) (events : List Event) :
    s.issuedTags events =
      (List.range' k (s.issuedTags events).length).map (issuedTag first) := by
  induction events generalizing k s with
  | nil => rfl
  | cons event events ih =>
    have hstep := s.tags_step event
    rw [issuedTags]
    cases htag : s.tagOf? event with
    | none =>
      rw [htag] at hstep
      exact ih (hstep.trans h)
    | some tag =>
      have hissued : tag = issuedTag first k := by
        cases event with
        | issue command =>
          rw [tagOf?, (s.tag_issue command).1, h] at htag
          exact (Option.some.inj htag).symm
        | _ => cases htag
      have hnext : (s.step event).tags = TagSupply.drop { first } (k + 1) := by
        rw [hstep, htag, h]
        exact Pipeline.advance_drop _ k
      rw [Option.toList_some, List.singleton_append, List.length_cons, List.range'_succ,
        List.map_cons, ← ih hnext, hissued]

/-- Until the numbers begin anew, no two searches get the same tag. -/
theorem nodup_issuedTags (first : Char) {events : List Event}
    (h : ((withTags first).issuedTags events).length ≤ TagSupply.period) :
    ((withTags first).issuedTags events).Nodup := by
  have hstart : (withTags first).tags = TagSupply.drop { first } 0 := rfl
  rw [issuedTags_eq_map hstart]
  refine List.Nodup.map_on (fun j hj k hk => ?_) List.nodup_range'
  rw [List.mem_range'_1] at hj hk
  exact issuedTag_inj (by omega) (by omega)

theorem exists_issuedTag {first : Char} {events : List Event} {tag : Tag}
    (h : tag ∈ (withTags first).issuedTags events) : ∃ k, tag = issuedTag first k := by
  have hstart : (withTags first).tags = TagSupply.drop { first } 0 := rfl
  rw [issuedTags_eq_map hstart] at h
  obtain ⟨k, -, rfl⟩ := List.mem_map.mp h
  exact ⟨k, rfl⟩

/-- A search is put in flight under the tag that it is given, and only when it is issued. -/
theorem newLabels_op? {s : Session} {event : Event} {op : InFlight.Op} (h : s.op? event = some op)
    (n : Nat) : ((op.newLabels n).map fun label => label.2.1).Sublist (s.tagOf? event).toList := by
  cases event with
  | issue command =>
    rw [op?] at h
    split at h
    · cases h
      exact List.nil_sublist _
    · cases h
      rw [tagOf?, (s.tag_issue command).1]
      exact List.Sublist.refl _
  | receive input =>
    obtain ⟨r, -, hr⟩ := of_op?_receive h
    have hnone : op.newLabels n = [] := by
      obtain ⟨_, _, _, -, rfl⟩ | ⟨_, -, rfl⟩ | ⟨_, _, -, rfl⟩ | ⟨_, -, rfl⟩ := Response.of_op? hr
      all_goals rfl
    rw [hnone]
    exact List.nil_sublist _
  | close =>
    cases h
    exact List.nil_sublist _
  | abandon id =>
    cases h
    exact List.nil_sublist _

theorem tags_entries_step (s : Session) (event : Event) :
    ((s.step event).inFlight.entries.map Entry.tag).Sublist
      (s.inFlight.entries.map Entry.tag ++ (s.tagOf? event).toList) := by
  have hlabels : ∀ inFlight : InFlight,
      inFlight.entries.map Entry.tag = inFlight.labels.map fun label => label.2.1 := by
    intro inFlight
    simp [InFlight.labels, Function.comp_def]
  rw [inFlight_step]
  cases hop : s.op? event with
  | none => exact List.sublist_append_left _ _
  | some op =>
    have hstep := (s.inFlight.labels_step_sublist op).map fun label => label.2.1
    rw [List.map_append, ← hlabels, ← hlabels] at hstep
    exact hstep.trans ((newLabels_op? hop _).append_left _)

/-- The searches in flight carry tags that were given out, in the order of issue. -/
theorem tags_entries_sublist (s : Session) (events : List Event) :
    ((s.run events).inFlight.entries.map Entry.tag).Sublist
      (s.inFlight.entries.map Entry.tag ++ s.issuedTags events) := by
  induction events generalizing s with
  | nil => exact List.sublist_append_left _ _
  | cons event events ih =>
    rw [run_cons, issuedTags, ← List.append_assoc]
    exact (ih (s.step event)).trans ((s.tags_entries_step event).append_right _)

end Session

/-! ### Completions without a text -/

/-- The line that completes a search and says nothing more. -/
def bareCompletion (tag : Tag) : Bytes :=
  utf8 tag.text ++ Ascii.space :: (Status.ok.word ++ crlf)

/-- Only a tag that begins with an ASCII character begins with an ASCII byte. -/
theorem issuedTag_cases (first : Char) (k : Nat) :
    (first.toNat < 0x80 ∧ utf8 (issuedTag first k).text =
      first.toUInt8 :: Decimal.padded 4 (k % TagSupply.period)) ∨
    0x80 ≤ first.toNat ∧ ∃ b tail, utf8 (issuedTag first k).text = b :: tail ∧ 0x80 ≤ b := by
  rw [utf8_issuedTag]
  obtain ⟨hlt, hbytes⟩ | ⟨hle, hbytes⟩ := utf8EncodeChar_cases first
  · rw [hbytes]
    exact .inl ⟨hlt, rfl⟩
  · obtain ⟨b, tail, hhead⟩ :=
      List.exists_cons_of_ne_nil (String.utf8EncodeChar_ne_nil (c := first))
    rw [hhead] at hbytes ⊢
    exact .inr ⟨hle, b, _, rfl, hbytes b List.mem_cons_self⟩

/-- A tag that begins with a usable character is an atom. -/
theorem exists_issuedAtom {first : Char} (h : TagSupply.isUsable first) (k : Nat) :
    ∃ a : PlainAtom, utf8 (issuedTag first k).text = a.bytes ∧
      (issuedTag first k).text = a.text := by
  obtain ⟨hascii, hfirst, hdigit, hplus, hbracket⟩ := TagSupply.isUsable_iff.mp h
  have hbytes : utf8 (issuedTag first k).text =
      first.toUInt8 :: Decimal.padded 4 (k % TagSupply.period) := by
    obtain ⟨-, hbytes⟩ | ⟨hle, -⟩ := issuedTag_cases first k
    · exact hbytes
    · omega
  have hatom : ∀ b ∈ first.toUInt8 :: Decimal.padded 4 (k % TagSupply.period), isAtomByte b :=
    List.forall_mem_cons.mpr ⟨hfirst, fun _ hb =>
      isAtomByte_of_isDigit (Decimal.isDigit_of_mem_padded hb)⟩
  refine ⟨⟨⟨_, List.cons_ne_nil _ _, hatom⟩, ?_, ?_, ?_⟩, hbytes, ?_⟩
  · simp [opensWithPunctuation, hplus, hbracket]
  · simp [hdigit]
  · -- The word is too short to be a tag.
    intro hnil
    have hlength := congrArg List.length hnil
    have hthree : (utf8 "NIL").length = 3 := by decide +kernel
    rw [upperCase, List.length_map, List.length_cons, Decimal.length_padded, hthree] at hlength
    omega
  · rw [← utf8_inj, hbytes, PlainAtom.text]
    exact (utf8_asciiText fun b hb => lt_of_isAtomByte (hatom b hb)).symm

/-- Behind a usable character the tag of a completion is read as the tag that was given out. -/
theorem parse_bareCompletion {first : Char} (h : TagSupply.isUsable first) (k : Nat) :
    Response.parse (bareCompletion (issuedTag first k)) =
      .ok (.tagged (issuedTag first k) .ok "") := by
  obtain ⟨a, hbytes, htext⟩ := exists_issuedAtom h k
  have hresponse : Scan.response.Gives (fun _ => True) (a.bytes ++
      ([Ascii.space] ++ (Status.ok.word ++ crlf))) (some (.tagged ⟨a.text⟩ .ok "")) :=
    Scan.gives_response_tagged a (s := .ok) ⟨Status.ok.word, Status.ok.atom.isUpper⟩ none
  have hparse : Response.parse (a.bytes ++
      ([Ascii.space] ++ (Status.ok.word ++ crlf)) ++ []) = _ :=
    Response.parse_of_gives hresponse trivial
  rw [List.append_nil, ← htext] at hparse
  rw [bareCompletion, hbytes]
  exact hparse

/-- A completion is read as a tagged response only if the character is usable. -/
theorem isUsable_of_parse_tagged {first : Char} {k : Nat} {tag : Tag} {status : Status}
    {text : String}
    (h : Response.parse (bareCompletion (issuedTag first k)) = .ok (.tagged tag status text)) :
    TagSupply.isUsable first := by
  obtain ⟨b, rest, hinput, hatom, hb, -, hdigits⟩ := Response.of_parse_tagged h
  rw [bareCompletion] at hinput hdigits
  obtain ⟨hlt, hbytes⟩ | ⟨-, c, tail, hbytes, hle⟩ := issuedTag_cases first k
  · rw [hbytes] at hinput hdigits
    obtain rfl : first.toUInt8 = b := (List.cons.inj hinput).1
    refine TagSupply.isUsable_iff.mpr ⟨hlt, hatom, fun hdigit => hdigits ?_, ?_, ?_⟩
    · -- With a digit in front the whole tag would be a number.
      have hall : ∀ d ∈ first.toUInt8 :: Decimal.padded 4 (k % TagSupply.period),
          Ascii.isDigit d :=
        List.forall_mem_cons.mpr ⟨hdigit, fun _ => Decimal.isDigit_of_mem_padded⟩
      have hspace : ¬ isAtomByte Ascii.space := by decide
      rw [List.takeWhile_append_of_pos fun d hd => isAtomByte_of_isDigit (hall d hd),
        List.takeWhile_cons_of_neg hspace, List.append_nil]
      exact List.all_eq_true.mpr hall
    · intro hplus
      rw [hplus] at hb
      cases hb
    · intro hbracket
      rw [hbracket] at hb
      cases hb
  · rw [hbytes] at hinput
    obtain rfl : c = b := (List.cons.inj hinput).1
    exact absurd hle (UInt8.not_le.mpr (lt_of_isAtomByte hatom))

/-- Digits stand behind the first character of a tag, so that a completion is no untagged response
either. -/
theorem parse_bareCompletion_ne_untagged (first : Char) (k : Nat) (data : Untagged) :
    Response.parse (bareCompletion (issuedTag first k)) ≠ .ok (.untagged data) := by
  intro h
  obtain ⟨rest, hinput⟩ := Response.of_parse_untagged h
  rw [bareCompletion] at hinput
  obtain ⟨-, hbytes⟩ | ⟨-, c, tail, hbytes, hle⟩ := issuedTag_cases first k
  · have hpadded : Decimal.padded 4 (k % TagSupply.period) ≠ [] := by
      simp [Decimal.padded, Decimal.encode_ne_nil]
    obtain ⟨d, tail, hdigits⟩ := List.exists_cons_of_ne_nil hpadded
    have hd : Ascii.isDigit d := Decimal.isDigit_of_mem_padded (by rw [hdigits]; simp)
    rw [hbytes, hdigits] at hinput
    obtain rfl : d = Ascii.space := (List.cons.inj (List.cons.inj hinput).2).1
    exact absurd hd (by decide)
  · rw [hbytes] at hinput
    obtain rfl : c = Ascii.star := (List.cons.inj hinput).1
    exact absurd hle (by decide)

/-! ### What a completion does -/

/-- Of searches with different tags, the first under a tag is the only one. -/
theorem find?_tag_eq {entries : List Entry} (hnodup : (entries.map Entry.tag).Nodup) {e : Entry}
    (he : e ∈ entries) : entries.find? (fun e' => e'.tag = e.tag) = some e ∧
      changeFirst (fun e' => e'.tag = e.tag) (fun _ => none) entries = entries.erase e := by
  induction entries with
  | nil => cases he
  | cons a rest ih =>
    rw [List.map_cons, List.nodup_cons] at hnodup
    obtain ⟨hnew, hrest⟩ := hnodup
    by_cases ha : a = e
    · subst ha
      simp [changeFirst]
    · have he : e ∈ rest := by simpa [Ne.symm ha] using he
      have htag : a.tag ≠ e.tag := fun heq => hnew (heq ▸ List.mem_map_of_mem he)
      obtain ⟨hfind, hchange⟩ := ih hrest he
      have herase : (a :: rest).erase e = a :: rest.erase e := by simp [ha]
      rw [List.find?_cons_of_neg (by simpa using htag), changeFirst, if_neg (by simpa using htag),
        hfind, hchange, herase]
      exact ⟨rfl, rfl⟩

namespace Session

/-- A response that is neither tagged nor untagged does nothing. -/
theorem receive_bareCompletion {first : Char} (h : ¬ TagSupply.isUsable first) (k : Nat)
    (s : Session) : (s.receive (bareCompletion (issuedTag first k))).1 = s := by
  cases hparse : Response.parse (bareCompletion (issuedTag first k)) with
  | error e => exact receive_of_error hparse
  | ok r =>
    rw [receive_of_ok hparse]
    cases r with
    | tagged tag status text => exact absurd (isUsable_of_parse_tagged hparse) h
    | untagged data => exact absurd hparse (parse_bareCompletion_ne_untagged first k data)
    | continuation text => rfl

theorem outcomes_of_mem_entries {first : Char} {events : List Event} {e : Entry}
    (he : e ∈ ((withTags first).run events).inFlight.entries) :
    ((withTags first).run events).inFlight.outcomes e.id = [] := by
  obtain ⟨ops, hops⟩ := exists_inFlight_run (withTags first) events
  have hids : e.id ∈ ((withTags first).run events).inFlight.ids := List.mem_map_of_mem he
  rw [hops] at hids ⊢
  exact InFlight.outcomes_of_mem_ids hids

/-- The tags of all searches of a run differ. If their first character is usable, a completion under
the tag of a search in flight takes out that search, hands what it found to its caller, and leaves
every other search alone. With any other character a completion is never read as a tagged response,
and does nothing. -/
theorem completions_come_home (first : Char) (events : List Event)
    (h : ((withTags first).issuedTags events).length ≤ TagSupply.period) :
    let s := (withTags first).run events
    let tags := (withTags first).issuedTags events
    tags.Nodup ∧ (s.inFlight.entries.map Entry.tag).Sublist tags ∧
    (TagSupply.isUsable first → ∀ e ∈ s.inFlight.entries,
      let s' := (s.receive (bareCompletion e.tag)).1
      s'.inFlight.entries = s.inFlight.entries.erase e ∧
      s'.inFlight.outcomes e.id = (if e.id ∈ s.inFlight.abandoned then [] else [.ok e.data]) ∧
      ∀ id ≠ e.id, s'.inFlight.outcomes id = s.inFlight.outcomes id) ∧
    (¬ TagSupply.isUsable first → ∀ tag ∈ tags,
      (∀ tag' status text,
        Response.parse (bareCompletion tag) ≠ .ok (.tagged tag' status text)) ∧
      (s.receive (bareCompletion tag)).1 = s) := by
  intro s tags
  have hnodup : tags.Nodup := nodup_issuedTags first h
  have hsublist : (s.inFlight.entries.map Entry.tag).Sublist tags :=
    tags_entries_sublist (withTags first) events
  refine ⟨hnodup, hsublist, fun husable e he => ?_, fun hunusable tag htag => ?_⟩
  · intro s'
    obtain ⟨k, hk⟩ := exists_issuedTag (hsublist.subset (List.mem_map_of_mem he))
    have hparse : Response.parse (bareCompletion e.tag) = .ok (.tagged e.tag .ok "") := by
      rw [hk]
      exact parse_bareCompletion husable k
    obtain ⟨hfind, herase⟩ := find?_tag_eq (hsublist.nodup hnodup) he
    have houtcomes := outcomes_receive_eq hparse hfind
    have hentries := congrArg InFlight.entries (inFlight_receive_of_parse hparse hfind)
    refine ⟨hentries.trans herase, ?_, fun id hid => ?_⟩
    · have hpending : s.inFlight.outcomes e.id = [] := outcomes_of_mem_entries he
      rw [houtcomes, hpending]
      by_cases hgone : e.id ∈ s.inFlight.abandoned <;> simp [hgone, Status.outcome]
    · rw [houtcomes, if_neg (fun hand => hid hand.1), List.append_nil]
  · obtain ⟨k, rfl⟩ := exists_issuedTag htag
    exact ⟨fun _ _ _ hparse => hunusable (isUsable_of_parse_tagged hparse),
      receive_bareCompletion hunusable k s⟩

/-- Two searches, a response to the first of which has come, under tags that begin with a letter and
under tags that begin with a plus sign. -/
theorem completions_come_home_twoSearches :
    let events : List Event := [.issue ⟨.everything, [], .search⟩,
      .receive (utf8 "* SEARCH 3\r\n"), .issue ⟨.everything, [], .uidSearch⟩]
    (((withTags 'z').run events).receive (utf8 "z0000 OK\r\n")).1.inFlight.outcomes 0 =
        [.ok { all := .ofNums [3] }] ∧
      (((withTags '+').run events).receive (utf8 "+0000 OK\r\n")).1 =
        (withTags '+').run events := by
  intro events
  constructor
  · have hpending : (⟨0, ⟨"z0000"⟩, .search, { all := .ofNums [3] }⟩ : Entry) ∈
        ((withTags 'z').run events).inFlight.entries := by
      decide +kernel
    have hinput : utf8 "z0000 OK\r\n" = bareCompletion ⟨"z0000"⟩ := by decide +kernel
    obtain ⟨-, -, husable, -⟩ := completions_come_home 'z' events (by decide +kernel)
    obtain ⟨-, houtcome, -⟩ := husable (by decide) _ hpending
    have hwaits : 0 ∉ ((withTags 'z').run events).inFlight.abandoned := by decide +kernel
    rw [hinput]
    exact houtcome.trans (if_neg hwaits)
  · have hissued : (⟨"+0000"⟩ : Tag) ∈ (withTags '+').issuedTags events := by decide +kernel
    have hinput : utf8 "+0000 OK\r\n" = bareCompletion ⟨"+0000"⟩ := by decide +kernel
    obtain ⟨-, -, -, hunusable⟩ := completions_come_home '+' events (by decide +kernel)
    rw [hinput]
    exact (hunusable (by decide) _ hissued).2

end Session

end ImapSearch
