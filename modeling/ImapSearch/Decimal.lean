import ImapSearch.Bytes

/-!
# ImapSearch.Decimal

**Numbers in decimal digits.** The wire writes every number in decimal digits
without a sign. `encode` writes a number with as few digits as it needs and
`padded` with zeros in front of them; `decode?` reads a run of digits of any
length, leading zeros included, and `decodeBelow?` also bounds the number. It
gives up as soon as the number reaches the bound, so that the time it takes
grows with the length of the run alone, and the answer is that of reading first
and comparing afterwards (`decodeBelow?_eq_filter`).
-/

namespace ImapSearch.Decimal

/-- The digits of a number, without leading zeros. -/
def encode (n : Nat) : Bytes := (Nat.toDigits 10 n).map Char.toUInt8

/-- The digits of a number, with zeros in front up to the given width. -/
def padded (width n : Nat) : Bytes :=
  List.replicate (width - (encode n).length) Ascii.zero ++ encode n

/-- The number that results when a digit is written behind the digits of a number. -/
def withDigit (n : Nat) (digit : UInt8) : Nat := 10 * n + (digit.toNat - Ascii.zero.toNat)

/-- The number that a run of digits writes. -/
def value (digits : Bytes) : Nat := digits.foldl withDigit 0

/-- The number that the bytes write, if they are digits and there is one at least. -/
def decode? (bs : Bytes) : Option Nat :=
  if bs ≠ [] ∧ bs.all Ascii.isDigit then some (value bs) else none

/-- The number that the digits write behind those of `n`, if no number on the way to it reaches the
bound. -/
def valueBelow? (bound n : Nat) : Bytes → Option Nat
  | [] => if n < bound then some n else none
  | digit :: digits => if n < bound then valueBelow? bound (withDigit n digit) digits else none

/-- The number that the bytes write, if they are digits and it is below the bound. -/
def decodeBelow? (bound : Nat) (bs : Bytes) : Option Nat :=
  if bs ≠ [] ∧ bs.all Ascii.isDigit then valueBelow? bound 0 bs else none

/-- A number in digits, as a text. -/
def text (n : Nat) : String := asciiText (encode n)

/-! ### Writing and reading -/

theorem encode_ne_nil (n : Nat) : encode n ≠ [] := by
  simp [encode, Nat.toDigits_ne_nil]

/-- A digit character is one byte, and that byte is a digit. -/
theorem toNat_toUInt8_of_isDigit {c : Char} (h : c.isDigit) :
    c.toUInt8.toNat = c.toNat ∧ 48 ≤ c.toNat ∧ c.toNat ≤ 57 := by
  rw [Char.isDigit_iff_toNat] at h
  obtain ⟨hl, hu⟩ := h
  refine ⟨?_, hl, hu⟩
  have hu' : c.toNat ≤ 57 := hu
  rw [Char.toUInt8, UInt32.toNat_toUInt8]
  exact Nat.mod_eq_of_lt (Nat.lt_of_le_of_lt hu' (by decide))

theorem isDigit_toUInt8 {c : Char} (h : c.isDigit) : Ascii.isDigit c.toUInt8 := by
  obtain ⟨he, hl, hu⟩ := toNat_toUInt8_of_isDigit h
  simp only [Ascii.isDigit, Bool.and_eq_true, decide_eq_true_eq, UInt8.le_iff_toNat_le, he]
  exact ⟨hl, hu⟩

theorem isDigit_of_mem_encode {n : Nat} {b : UInt8} (h : b ∈ encode n) : Ascii.isDigit b := by
  simp only [encode, List.mem_map] at h
  obtain ⟨c, hc, rfl⟩ := h
  exact isDigit_toUInt8 (Nat.isDigit_of_mem_toDigits (by decide) (by decide) hc)

theorem all_isDigit_encode (n : Nat) : (encode n).all Ascii.isDigit := by
  simpa using fun _ => isDigit_of_mem_encode

/-- Digit characters, as bytes, write the number that they write as characters. -/
theorem foldl_withDigit_map {cs : List Char} (h : ∀ c ∈ cs, c.isDigit) (k : Nat) :
    (cs.map Char.toUInt8).foldl withDigit k = Nat.ofDigitChars 10 cs k := by
  induction cs generalizing k with
  | nil => rfl
  | cons c cs ih =>
    have hv := (toNat_toUInt8_of_isDigit (h c (by simp))).1
    rw [List.map_cons, List.foldl_cons, ih fun d hd => h d (by simp [hd]),
      Nat.ofDigitChars_cons, withDigit, hv]
    rfl

/-- The digits of a number write that number. -/
@[simp] theorem value_encode (n : Nat) : value (encode n) = n := by
  rw [value, encode,
    foldl_withDigit_map fun c hc => Nat.isDigit_of_mem_toDigits (by decide) (by decide) hc]
  exact Nat.ofDigitChars_toDigits (by decide) (by decide)

/-- Reading undoes writing. -/
@[simp] theorem decode?_encode (n : Nat) : decode? (encode n) = some n := by
  rw [decode?, if_pos ⟨encode_ne_nil n, all_isDigit_encode n⟩, value_encode]

/-! ### Reading below a bound -/

/-- Digits behind those of a number never make it smaller. -/
theorem le_foldl_withDigit (digits : Bytes) (n : Nat) : n ≤ digits.foldl withDigit n := by
  induction digits generalizing n with
  | nil => exact Nat.le_refl n
  | cons digit digits ih =>
    have step : n ≤ withDigit n digit := by unfold withDigit; omega
    exact Nat.le_trans step (ih _)

theorem valueBelow?_eq (bound n : Nat) (digits : Bytes) :
    valueBelow? bound n digits
      = if digits.foldl withDigit n < bound then some (digits.foldl withDigit n) else none := by
  induction digits generalizing n with
  | nil => rfl
  | cons digit digits ih =>
    rw [valueBelow?, ih, List.foldl_cons]
    by_cases h : n < bound
    · rw [if_pos h]
    · have reached : n ≤ digits.foldl withDigit (withDigit n digit) :=
        le_foldl_withDigit (digit :: digits) n
      rw [if_neg h, if_neg (by omega)]

/-- Giving up at the bound answers as reading first and comparing afterwards does. -/
theorem decodeBelow?_eq_filter (bound : Nat) (bs : Bytes) :
    decodeBelow? bound bs = (decode? bs).filter (· < bound) := by
  rw [decodeBelow?, decode?]
  split
  · rw [valueBelow?_eq, value, Option.filter_some]
    simp only [decide_eq_true_eq]
  · rfl

end ImapSearch.Decimal
