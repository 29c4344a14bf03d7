import ImapSearch.Proofs.Scan.InLine

/-!
# ImapSearch.Proofs.Scan.Walk

**Reading goes token by token.** Every reader of responses is put together from the reader
of tokens, and goes on only where a token ended: it follows the tokens of the response
(`Walk`) up to a place where it ends (`Ending`). It never goes on behind a line terminator
that it met as a token, nor behind a text, which takes up the rest of the line as it is.

`Scan.Walks` says this of a scan. Like `Scan.Forward` it composes, so that it holds of all
scans down to `Scan.response`.
-/

namespace ImapSearch.Scan

variable {α β : Type} {text : Bool}

/-! ### Walks -/

/-- Reading token by token leads from one place to another. The tokens are listed with the places
where they begin; a line terminator is not among them. -/
inductive Walk : Cursor → List (Cursor × Token) → Cursor → Prop
  | nil (c : Cursor) : Walk c [] c
  | cons {c d e : Cursor} {t : Token} {tokens : List (Cursor × Token)} (h : token c = .ok t d)
      (ht : t ≠ .lineEnd) (hrest : Walk d tokens e) : Walk c ((c, t) :: tokens) e

theorem Walk.append {c d e : Cursor} {tokens more : List (Cursor × Token)} (h : Walk c tokens d)
    (hmore : Walk d more e) : Walk c (tokens ++ more) e := by
  induction h with
  | nil => exact hmore
  | cons h ht _ ih => exact .cons h ht (ih hmore)

theorem Walk.single {c d : Cursor} {t : Token} (h : token c = .ok t d) (ht : t ≠ .lineEnd) :
    Walk c [(c, t)] d :=
  .cons h ht (.nil d)

/-- How a scan ends that has come to a place token by token. Whether it may end with a text is
given. -/
inductive Ending (text : Bool) (d : Cursor) : EStateM.Result Error Cursor α → Prop
  /-- It gives a value. -/
  | value (a : α) : Ending text d (.ok a d)
  /-- It fails because of what it has read. -/
  | fault {e : Error} (h : ¬ e.IsIncomplete) : Ending text d (.error e d)
  /-- It fails because the line is over. -/
  | lineEnd {e : Error} {after : Cursor} (ht : token d = .ok .lineEnd after)
      (h : ¬ e.IsIncomplete) : Ending text d (.error e after)
  /-- There is no token, and it fails for the same reason. -/
  | noToken {e : Error} {after : Cursor} (ht : token d = .error e after) :
      Ending text d (.error e after)
  /-- It reads the rest of the line as a text and gives a value. -/
  | text (h : text) {bytes : Bytes} {after : Cursor} (hline : line d = .ok bytes after) (a : α) :
      Ending text d (.ok a after)

/-- From this place the scan goes token by token to where it ends. -/
def WalksFrom (text : Bool) (s : Scan α) (c : Cursor) : Prop :=
  ∃ tokens d, Walk c tokens d ∧ Ending text d (s c)

/-- From every place the scan goes token by token to where it ends. -/
def Walks (text : Bool) (s : Scan α) : Prop := ∀ c, WalksFrom text s c

/-! ### Running one scan after another -/

theorem walks_pure (a : α) : Walks text (pure a : Scan α) := fun c => ⟨[], c, .nil c, .value a⟩

theorem walks_fail {fault : Fault} (h : fault ≠ .literalIncomplete) :
    Walks text (fail fault : Scan α) :=
  fun c => ⟨[], c, .nil c, .fault (not_isIncomplete_malformed h)⟩

theorem Ending.error {c d : Cursor} {e : Error}
    (h : Ending text c (.error e d : EStateM.Result Error Cursor α)) (text' : Bool) :
    Ending text' c (.error e d : EStateM.Result Error Cursor β) := by
  cases h with
  | fault h => exact .fault h
  | lineEnd ht h => exact .lineEnd ht h
  | noToken ht => exact .noToken ht

theorem WalksFrom.bind {s : Scan α} {f : α → Scan β} {c : Cursor} (hs : WalksFrom false s c)
    (hf : ∀ a d, s c = .ok a d → WalksFrom text (f a) d) : WalksFrom text (s >>= f) c := by
  obtain ⟨tokens, d, hwalk, hend⟩ := hs
  cases h : s c with
  | error e after =>
    rw [h] at hend
    refine ⟨tokens, d, hwalk, ?_⟩
    rw [bind_apply, h]
    exact hend.error text
  | ok a after =>
    rw [h] at hend
    cases hend with
    | text htext => cases htext
    | value =>
      obtain ⟨more, e, hmore, hend⟩ := hf a d h
      refine ⟨tokens ++ more, e, hwalk.append hmore, ?_⟩
      rw [bind_of_ok h]
      exact hend

theorem Walks.bind {s : Scan α} {f : α → Scan β} (hs : Walks false s)
    (hf : ∀ a, Walks text (f a)) : Walks text (s >>= f) :=
  fun c => (hs c).bind fun a d _ => hf a d

theorem WalksFrom.map {s : Scan α} {c : Cursor} (hs : WalksFrom text s c) (f : α → β) :
    WalksFrom text (f <$> s) c := by
  obtain ⟨tokens, d, hwalk, hend⟩ := hs
  refine ⟨tokens, d, hwalk, ?_⟩
  rw [map_apply]
  cases h : s c with
  | error e after =>
    rw [h] at hend
    exact hend.error text
  | ok a after =>
    rw [h] at hend
    cases hend with
    | text htext hline => exact .text htext hline _
    | value => exact .value _

theorem Walks.map {s : Scan α} (hs : Walks text s) (f : α → β) : Walks text (f <$> s) :=
  fun c => (hs c).map f

/-- A token, and a scan behind it that fails if the line is over. -/
theorem walks_token_bind {f : Token → Scan β} (hf : ∀ t, t ≠ .lineEnd → Walks text (f t))
    (hend : ∀ d, ∃ e, ¬ e.IsIncomplete ∧ f .lineEnd d = .error e d) : Walks text (token >>= f) := by
  intro c
  cases h : token c with
  | error e d =>
    refine ⟨[], c, .nil c, ?_⟩
    rw [bind_apply, h]
    exact .noToken h
  | ok t d =>
    by_cases ht : t = .lineEnd
    · subst ht
      obtain ⟨e, he, hfail⟩ := hend d
      refine ⟨[], c, .nil c, ?_⟩
      rw [bind_of_ok h, hfail]
      exact .lineEnd h he
    · obtain ⟨tokens, e, hwalk, hending⟩ := hf t ht d
      refine ⟨(c, t) :: tokens, e, .cons h ht hwalk, ?_⟩
      rw [bind_of_ok h]
      exact hending

/-! ### Values -/

theorem token_space {c : Cursor} {rest : Bytes} (h : c.rest = Ascii.space :: rest) :
    token c = .ok .space (c.skip 1) := by
  unfold token
  rw [h]
  rfl

theorem walks_space : Walks text space := by
  intro c
  by_cases h : c.peek = some Ascii.space
  · obtain ⟨rest, hrest⟩ := List.head?_eq_some_iff.mp h
    have hspace : space c = .ok true (c.skip 1) := if_pos h
    refine ⟨[(c, .space)], c.skip 1, .single (token_space hrest) (by simp), ?_⟩
    rw [hspace]
    exact .value true
  · have hspace : space c = .ok false c := if_neg h
    refine ⟨[], c, .nil c, ?_⟩
    rw [hspace]
    exact .value false

theorem walks_peek : Walks text peek := fun c => ⟨[], c, .nil c, .value _⟩

theorem walks_lineEnds : Walks text lineEnds := fun c => ⟨[], c, .nil c, .value _⟩

/-- A fault that a scan finds where the line is over. -/
theorem exists_fail (fault : Fault) (h : fault ≠ .literalIncomplete) (d : Cursor) :
    ∃ e, ¬ e.IsIncomplete ∧ (fail fault : Scan α) d = .error e d :=
  ⟨_, not_isIncomplete_malformed h, rfl⟩

theorem walks_expect {expected : Token} (h : expected.kind ≠ .lineEnd) :
    Walks text (expect expected) := by
  refine walks_token_bind (fun t _ => ?_) fun d => ?_
  · split
    · exact walks_pure _
    · exact walks_fail (by simp)
  · have hkind : ¬ Token.lineEnd.kind = expected.kind := Ne.symm h
    rw [if_neg hkind]
    exact exists_fail _ (by simp) d

theorem walks_expectSpace : Walks text expectSpace := by
  refine walks_space.bind fun found => ?_
  split
  · exact walks_pure _
  · exact walks_fail (by simp)

theorem walks_number : Walks text number := by
  refine walks_token_bind (fun t _ => ?_) (exists_fail _ (by simp))
  split
  · exact walks_pure _
  · exact walks_fail (by simp)

theorem walks_atom : Walks text atom := by
  refine walks_token_bind (fun t _ => ?_) (exists_fail _ (by simp))
  split
  · exact walks_pure _
  · exact walks_pure _
  · exact walks_fail (by simp)

theorem walks_string : Walks text string := by
  refine walks_token_bind (fun t _ => ?_) (exists_fail _ (by simp))
  split
  · exact walks_pure _
  · exact walks_pure _
  · exact walks_pure _
  · exact walks_pure _
  · split
    · exact walks_pure _
    · exact walks_fail (by simp)
  · exact walks_fail (by simp)

/-! ### Lists -/

theorem walks_discardNested (depth : Nat) (c : Cursor) :
    WalksFrom text (discardNested depth) c := by
  have hlineEnd : ∀ depth, nesting? depth .lineEnd = none := by simp [nesting?, Token.isScalar]
  unfold WalksFrom
  fun_induction discardNested depth c with
  | case1 depth c e d h => exact ⟨[], c, .nil c, .noToken h⟩
  | case2 depth c t d h hn =>
    by_cases ht : t = .lineEnd
    · subst ht
      exact ⟨[], c, .nil c, .lineEnd h (not_isIncomplete_malformed (by simp))⟩
    · exact ⟨[(c, t)], d, .single h ht, .fault (not_isIncomplete_malformed (by simp))⟩
  | case3 depth c t d h hn =>
    have ht : t ≠ .lineEnd := by
      rintro rfl
      rw [hlineEnd] at hn
      cases hn
    exact ⟨[(c, t)], d, .single h ht, .value ()⟩
  | case4 depth c t d h n hn ih =>
    have ht : t ≠ .lineEnd := by
      rintro rfl
      rw [hlineEnd] at hn
      cases hn
    obtain ⟨tokens, e, hwalk, hend⟩ := ih
    exact ⟨(c, t) :: tokens, e, .cons h ht hwalk, hend⟩

theorem walks_spaced {item : Scan (Option α)} (hitem : item.Forward) (h : Walks false item) :
    Walks text (spaced item hitem) := by
  intro c
  induction hlength : c.rest.length using Nat.strongRecOn generalizing c with
  | _ length ih =>
    obtain ⟨pos, bs⟩ := c
    by_cases hspace : bs.head? = some Ascii.space
    · obtain ⟨rest, rfl⟩ := List.head?_eq_some_iff.mp hspace
      have hbehind : WalksFrom text (item >>= fun a? => a?.elim (pure []) fun a =>
          (a :: ·) <$> spaced item hitem) ⟨pos + 1, rest⟩ := by
        refine (h _).bind fun a? d hd => ?_
        cases a? with
        | none => exact walks_pure [] d
        | some a =>
          have hshorter : d.rest.length < length := by
            rw [← hlength]
            exact Nat.lt_succ_of_le (hitem.ok hd).length_le
          exact (ih _ hshorter d rfl).map (a :: ·)
      obtain ⟨tokens, d, hwalk, hend⟩ := hbehind
      refine ⟨_, d, .cons (token_space rfl) (by simp) hwalk, ?_⟩
      rw [spaced_space]
      exact hend
    · refine ⟨[], ⟨pos, bs⟩, .nil _, ?_⟩
      rw [spaced_of_not_space hspace]
      exact .value []

end ImapSearch.Scan
