import ImapSearch.Bytes

/-!
# ImapSearch.Text.Lossy

**Reading text that may not be UTF-8.** The human-readable text of a response is
shown to people, so a byte that is wrong in it must not lose the rest. `lossy`
reads a text as it stands when it is UTF-8. Otherwise it replaces every maximal
run of bytes that begins a character without completing it, and every byte that
begins none, by the replacement character U+FFFD; this is the practice that the
Unicode standard recommends for such readers.
-/

namespace ImapSearch.Text

/-- What a lead byte promises: how many bytes continue the character, and the range of the first of
them. The range is narrower where longer encodings of a smaller number, surrogates, or numbers past
the last code point would begin. -/
def continuation? (lead : UInt8) : Option (Nat × UInt8 × UInt8) :=
  if 0xC2 ≤ lead && lead ≤ 0xDF then some (1, 0x80, 0xBF)
  else if lead = 0xE0 then some (2, 0xA0, 0xBF)
  else if lead = 0xED then some (2, 0x80, 0x9F)
  else if 0xE1 ≤ lead && lead ≤ 0xEF then some (2, 0x80, 0xBF)
  else if lead = 0xF0 then some (3, 0x90, 0xBF)
  else if 0xF1 ≤ lead && lead ≤ 0xF3 then some (3, 0x80, 0xBF)
  else if lead = 0xF4 then some (3, 0x80, 0x8F)
  else none

/-- At most `count` bytes that continue a character, of which the first lies between `low` and
`high`. -/
def continuing (count : Nat) (low high : UInt8) : Bytes → Bytes
  | [] => []
  | b :: rest =>
    match count with
    | 0 => []
    | more + 1 => if low ≤ b && b ≤ high then b :: continuing more 0x80 0xBF rest else []

/-- The bits of a character that stand in its lead byte, when `count` bytes follow: five, four or
three of the low bits. -/
def leadBits (lead : UInt8) (count : Nat) : Nat :=
  match count with
  | 1 => lead.toNat % 32
  | 2 => lead.toNat % 16
  | _ => lead.toNat % 8

/-- The character that a complete sequence stands for: the bits of its lead byte, then six bits from
each byte that follows. -/
def assemble (lead : UInt8) (tail : Bytes) : Char :=
  Char.ofNat (tail.foldl (fun n b => n * 64 + b.toNat % 64) (leadBits lead tail.length))

/-- The first character of bytes that begin with `lead`, and how many of the bytes after `lead` it
takes up. -/
def firstChar (lead : UInt8) (rest : Bytes) : Char × Nat :=
  if lead < 0x80 then (Char.ofNat lead.toNat, 0)
  else
    match continuation? lead with
    | none => ('\uFFFD', 0)
    | some (count, low, high) =>
      let tail := continuing count low high rest
      (if tail.length = count then assemble lead tail else '\uFFFD', tail.length)

/-- The characters of the bytes, with U+FFFD for whatever is no character. -/
def lossyChars : Bytes → List Char
  | [] => []
  | b :: rest => (firstChar b rest).1 :: lossyChars (rest.drop (firstChar b rest).2)
termination_by bs => bs.length
decreasing_by simp only [List.length_drop, List.length_cons]; omega

/-- The text that the bytes hold, with U+FFFD for whatever in them is not UTF-8. -/
def lossy (bs : Bytes) : String := (ofUtf8? bs).getD (String.ofList (lossyChars bs))

/-- A text in UTF-8 is read as it stands. -/
@[simp] theorem lossy_utf8 (s : String) : lossy (utf8 s) = s := by simp [lossy]

/-- A longer encoding of a smaller number, half of a surrogate pair, and a number past the last code
point begin no character; a sequence that breaks off counts once. -/
example :
    lossyChars [0xC0, 0x80] = ['\uFFFD', '\uFFFD']
      ∧ lossyChars [0xED, 0xA0, 0x80] = ['\uFFFD', '\uFFFD', '\uFFFD']
      ∧ lossyChars [0xF4, 0x90] = ['\uFFFD', '\uFFFD']
      ∧ lossyChars [0xF0, 0x9F, 0x98, 0x41] = ['\uFFFD', 'A']
      ∧ lossyChars [0xE2, 0x82, 0xAC] = ['€'] := by decide +kernel

end ImapSearch.Text
