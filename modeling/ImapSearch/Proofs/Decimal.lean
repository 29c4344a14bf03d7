import ImapSearch.Decimal
import Mathlib.Algebra.Group.Nat.Defs
import Mathlib.Data.List.TakeDrop

/-!
# ImapSearch.Proofs.Decimal

**Digits among other bytes.** A reader takes the digits of a number as the
longest run of digits (`span_append`), and some readers limit how many there may
be or refuse a leading zero. So this module says how many digits a number has,
that none of them leads with zero, and that zeros in front change nothing.
-/

namespace ImapSearch

/-! ### Runs of bytes -/

/-- What holds of a byte holds of the first byte of what it begins. -/
theorem forall_mem_head?_cons {P : UInt8 → Prop} {b : UInt8} (hb : P b) (rest : Bytes) :
    ∀ c ∈ (b :: rest).head?, P c := by
  intro c hc
  cases hc
  exact hb

/-- The longest run ends where the first byte without the property stands. -/
theorem span_append {p : UInt8 → Bool} {run rest : Bytes} (hrun : ∀ b ∈ run, p b)
    (hrest : ∀ b ∈ rest.head?, ¬ p b) : (run ++ rest).span p = (run, rest) := by
  have stop : rest.takeWhile p = [] ∧ rest.dropWhile p = rest := by
    cases rest with
    | nil => exact ⟨rfl, rfl⟩
    | cons b rest =>
      have hb : ¬ p b := hrest b rfl
      simp [hb]
  rw [List.span_eq_takeWhile_dropWhile, List.takeWhile_append_of_pos hrun,
    List.dropWhile_append_of_pos hrun, stop.1, stop.2, List.append_nil]

namespace Decimal

/-! ### Digits -/

theorem ne_of_isDigit {d b : UInt8} (hd : Ascii.isDigit d) (hb : ¬ Ascii.isDigit b) : d ≠ b := by
  intro heq
  subst heq
  exact hb hd

theorem toNat_of_isDigit {d : UInt8} (h : Ascii.isDigit d) : 48 ≤ d.toNat ∧ d.toNat ≤ 57 := by
  simp only [Ascii.isDigit, Bool.and_eq_true, decide_eq_true_eq, UInt8.le_iff_toNat_le] at h
  exact h

theorem lt_of_isDigit {d : UInt8} (h : Ascii.isDigit d) : d < 0x80 := by
  rw [UInt8.lt_iff_toNat_lt]
  exact Nat.lt_of_le_of_lt (toNat_of_isDigit h).2 (by decide)

theorem encode_eq_if (n : Nat) :
    encode n = if n < 10 then [(Nat.digitChar n).toUInt8]
      else encode (n / 10) ++ [(Nat.digitChar (n % 10)).toUInt8] := by
  rw [encode, Nat.toDigits_eq_if (by decide)]
  split <;> simp [encode]

/-- The digits of a number do not lead with a zero, unless the number is zero. -/
theorem head?_encode {n : Nat} (hn : n ≠ 0) : (encode n).head? ≠ some Ascii.zero := by
  induction n using Nat.strongRecOn with
  | _ n ih =>
    rw [encode_eq_if]
    split
    next h =>
      have digits : ∀ m < 10, m ≠ 0 →
          [(Nat.digitChar m).toUInt8].head? ≠ some Ascii.zero := by decide
      exact digits n h hn
    next h =>
      have ih' := ih (n / 10) (by omega) (by omega)
      cases hd : encode (n / 10) with
      | nil => exact absurd hd (encode_ne_nil _)
      | cons d ds => simpa [hd] using ih'

theorem length_encode_le_iff {n k : Nat} (hk : 0 < k) : (encode n).length ≤ k ↔ n < 10 ^ k := by
  rw [encode, List.length_map]
  exact Nat.length_toDigits_le_iff (by decide) hk

/-! ### Zeros in front -/

theorem length_padded (width n : Nat) : (padded width n).length = max width (encode n).length := by
  simp only [padded, List.length_append, List.length_replicate]
  omega

theorem isDigit_of_mem_padded {width n : Nat} {b : UInt8} (h : b ∈ padded width n) :
    Ascii.isDigit b := by
  rcases List.mem_append.mp h with hz | he
  · rw [List.eq_of_mem_replicate hz]
    decide
  · exact isDigit_of_mem_encode he

/-- Zeros in front do not change the number. -/
theorem decode?_padded (width n : Nat) : decode? (padded width n) = some n := by
  have hne : padded width n ≠ [] := by simp [padded, encode_ne_nil]
  have hall : (padded width n).all Ascii.isDigit := by simpa using fun _ => isDigit_of_mem_padded
  have zeros : ∀ k : Nat, (List.replicate k Ascii.zero).foldl withDigit 0 = 0 := by
    intro k
    induction k with
    | zero => rfl
    | succ k ih =>
      rw [List.replicate_succ, List.foldl_cons]
      exact ih
  rw [decode?, if_pos ⟨hne, hall⟩, value, padded, List.foldl_append, zeros]
  exact congrArg some (value_encode n)

/-! ### Reading below a bound -/

/-- Digits are read if the number that they write is below the bound. -/
theorem decodeBelow?_of_isDigit {digits : Bytes} (hne : digits ≠ [])
    (h : ∀ d ∈ digits, Ascii.isDigit d) (bound : Nat) :
    decodeBelow? bound digits = if value digits < bound then some (value digits) else none := by
  rw [decodeBelow?, if_pos ⟨hne, by simpa using h⟩, valueBelow?_eq, value]

/-- What is read below a bound. -/
theorem decodeBelow?_eq_some_iff {bound n : Nat} {digits : Bytes} :
    decodeBelow? bound digits = some n ↔
      digits ≠ [] ∧ (∀ d ∈ digits, Ascii.isDigit d) ∧ value digits = n ∧ n < bound := by
  constructor
  · intro h
    obtain ⟨⟨hne, hall⟩, -⟩ := Option.ite_none_right_eq_some.mp h
    have hdigits : ∀ d ∈ digits, Ascii.isDigit d := by simpa using hall
    rw [decodeBelow?_of_isDigit hne hdigits] at h
    obtain ⟨hlt, hn⟩ := Option.ite_none_right_eq_some.mp h
    obtain rfl := Option.some.inj hn
    exact ⟨hne, hdigits, rfl, hlt⟩
  · rintro ⟨hne, hdigits, rfl, hlt⟩
    rw [decodeBelow?_of_isDigit hne hdigits, if_pos hlt]

theorem isDigit_of_decodeBelow? {bound n : Nat} {digits : Bytes}
    (h : decodeBelow? bound digits = some n) :
    digits ≠ [] ∧ ∀ d ∈ digits, Ascii.isDigit d := by
  obtain ⟨hne, hdigits, -⟩ := decodeBelow?_eq_some_iff.mp h
  exact ⟨hne, hdigits⟩

theorem lt_of_decodeBelow? {bound n : Nat} {digits : Bytes}
    (h : decodeBelow? bound digits = some n) : n < bound :=
  (decodeBelow?_eq_some_iff.mp h).2.2.2

end Decimal

end ImapSearch
