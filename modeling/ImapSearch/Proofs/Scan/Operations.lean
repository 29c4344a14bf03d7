import ImapSearch.Proofs.Scan.Tokens

/-!
# ImapSearch.Proofs.Scan.Operations

**Reading on, whatever happens.** A reader of responses has eight operations
(`Scan.Operation`). Some of them give up in the middle of a token, and a caller may go on
after an error from where it came up. So the place in the input is looked at after any
operations whatsoever, with any answers (`Scan.run`).

Such a place is one inside the input (`Cursor.Within`): no operation goes back, and none goes
beyond the end. A token takes up at least one byte, so that there are at most as many of them
as there are bytes left (`Scan.run_progress`).
-/

namespace ImapSearch

/-! ### Places in an input -/

namespace Cursor

variable {c d : Cursor} {input : Bytes}

/-- A place inside the input, at its end at most, with the bytes behind it left to be read. -/
structure Within (c : Cursor) (input : Bytes) : Prop where
  pos_le : c.pos ≤ input.length
  rest_eq : c.rest = input.drop c.pos

theorem within_start (input : Bytes) : (start input).Within input := ⟨Nat.zero_le _, rfl⟩

theorem Reaches.le_pos (h : c.Reaches d) : c.pos ≤ d.pos := by
  obtain ⟨read, -, hpos⟩ := h
  omega

theorem Within.of_reaches (h : c.Within input) (hd : c.Reaches d) : d.Within input := by
  obtain ⟨read, hread, hpos⟩ := hd
  have hrest : d.rest = input.drop d.pos := by
    rw [hpos, ← List.drop_drop, ← h.rest_eq, hread, List.drop_left]
  have hlength : read.length ≤ input.length - c.pos := by
    rw [← List.length_drop, ← h.rest_eq, hread, List.length_append]
    exact Nat.le_add_right _ _
  have hle := h.pos_le
  exact ⟨by omega, hrest⟩

theorem Within.rest_eq_nil_iff (h : c.Within input) : c.rest = [] ↔ c.pos = input.length := by
  rw [h.rest_eq, List.drop_eq_nil_iff]
  exact ⟨Nat.le_antisymm h.pos_le, fun hpos => hpos.ge⟩

end Cursor

namespace Scan

/-! ### Tokens advance -/

/-- Short of the end of the input, a token takes up at least one byte. -/
theorem pos_lt_of_token {c d : Cursor} {t : Token} (h : token c = .ok t d)
    (ht : t ≠ .endOfInput) : c.pos < d.pos := by
  obtain ⟨read, hread, hpos⟩ := forward_token.ok h
  have hlength := length_lt_of_token h ht
  rw [hread, List.length_append] at hlength
  omega

theorem Yields.reaches {c d : Cursor} {ts : List Token} (h : Yields c ts d) : c.Reaches d := by
  induction h with
  | nil c => exact .refl c
  | cons hread _ ih => exact (forward_token.ok hread).trans ih

/-- There are at most as many tokens as bytes that they were read from. -/
theorem Yields.pos_add_length_le {c d : Cursor} {ts : List Token} (h : Yields c ts d)
    (hend : .endOfInput ∉ ts) : c.pos + ts.length ≤ d.pos := by
  induction h with
  | nil => simp
  | cons hread _ ih =>
    rw [List.mem_cons, not_or] at hend
    have hpos := pos_lt_of_token hread (Ne.symm hend.1)
    have hrest := ih hend.2
    rw [List.length_cons]
    omega

/-! ### Operations -/

/-- What can be read from a response in one go. -/
inductive Operation
  | token
  | expect (expected : Token)
  | expectSpace
  | space
  | string
  | number
  | atom
  | discardValue
deriving Repr

namespace Operation

/-- What an operation answers if it succeeds. -/
def Answer : Operation → Type
  | token => Token
  | expect _ | expectSpace | discardValue => Unit
  | space => Bool
  | string => String
  | number => Nat
  | atom => Bytes

/-- The scan that an operation is. -/
def scan : (op : Operation) → Scan op.Answer
  | token => Scan.token
  | expect expected => Scan.expect expected
  | expectSpace => Scan.expectSpace
  | space => Scan.space
  | string => Scan.string
  | number => Scan.number
  | atom => Scan.atom
  | discardValue => Scan.discardValue

/-- Where an operation stops, with an answer or with an error. -/
def after (op : Operation) (c : Cursor) : Cursor := stop (op.scan c)

theorem forward_scan (op : Operation) : op.scan.Forward := by
  cases op with
  | token => exact forward_token
  | expect expected => exact forward_expect expected
  | expectSpace => exact forward_expectSpace
  | space => exact forward_space
  | string => exact forward_string
  | number => exact forward_number
  | atom => exact forward_atom
  | discardValue => exact forward_discardValue

theorem reaches_after (op : Operation) (c : Cursor) : c.Reaches (op.after c) := op.forward_scan c

end Operation

/-- Where operations stop that are carried out one after another, each from where the one in front
of it stopped, whether that succeeded or not. -/
def run (c : Cursor) (ops : List Operation) : Cursor := ops.foldl (fun c op => op.after c) c

theorem reaches_run (c : Cursor) (ops : List Operation) : c.Reaches (run c ops) := by
  induction ops generalizing c with
  | nil => exact .refl c
  | cons op ops ih => exact (op.reaches_after c).trans (ih (op.after c))

theorem within_run (input : Bytes) (ops : List Operation) :
    (run (Cursor.start input) ops).Within input :=
  (Cursor.within_start input).of_reaches (reaches_run _ ops)

/-- After any operations, reading stands at a place inside the input, and the next operation neither
goes back nor beyond the end. The token for the end of the input is read at the end alone, and stays
there; every other token takes up at least one byte. So the input is over, or an error comes up,
after at most as many tokens as there are bytes left. -/
theorem run_progress (input : Bytes) (ops : List Operation) :
    let c := run (Cursor.start input) ops
    c.Within input ∧
    (∀ op : Operation, c.pos ≤ (op.after c).pos ∧ (op.after c).Within input) ∧
    (∀ d, token c = .ok .endOfInput d ↔ c.pos = input.length ∧ d = c) ∧
    (∀ t d, token c = .ok t d → t ≠ .endOfInput → c.pos < d.pos) ∧
    ∃ ts d, Yields c ts d ∧ .endOfInput ∉ ts ∧ c.pos + ts.length ≤ input.length ∧
      (token d = .ok .endOfInput d ∧ d.pos = input.length ∨ ∃ e f, token d = .error e f) := by
  intro c
  have hc : c.Within input := within_run input ops
  refine ⟨hc, fun op => ?_, fun d => ?_, fun t d => pos_lt_of_token, ?_⟩
  · have hreach := op.reaches_after c
    exact ⟨hreach.le_pos, hc.of_reaches hreach⟩
  · rw [token_eq_end_iff, hc.rest_eq_nil_iff]
  · obtain ⟨d, hread, hend, hstop⟩ := yields_tokens c
    have hd : d.Within input := hc.of_reaches hread.reaches
    refine ⟨_, d, hread, hend, (hread.pos_add_length_le hend).trans hd.pos_le, ?_⟩
    obtain ⟨-, hover⟩ | ⟨e, -, herror⟩ := hstop
    · obtain ⟨hrest, hstay⟩ := token_eq_end_iff.mp hover
      rw [hstay] at hover
      exact .inl ⟨hover, hd.rest_eq_nil_iff.mp hrest⟩
    · exact .inr ⟨e, _, herror⟩

end Scan

end ImapSearch
