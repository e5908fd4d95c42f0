import Mathlib.Data.List.Basic

/-!
# Lossy UTF-8

The text of any bytes.  Where they are not UTF-8, the longest start of a sequence that could still
have been continued becomes one replacement character.
-/

namespace ChittaField.Lossy

/-- U+FFFD -/
def replacement : Char := '\ufffd'

/-- A byte inside a sequence. -/
def isContinuation (b : UInt8) : Bool := b &&& 0xC0 == 0x80

/-- The character whose bits these are. -/
def ofBits (n : ℕ) : Char := Char.ofNat n

/-- The six bits of a byte inside a sequence. -/
def low (b : UInt8) : ℕ := (b &&& 0x3F).toNat

/-- The second byte of a sequence of three bytes. -/
def secondOfThree (b c : UInt8) : Bool :=
  (b == 0xE0 && 0xA0 ≤ c && c ≤ 0xBF) || (0xE1 ≤ b && b ≤ 0xEC && 0x80 ≤ c && c ≤ 0xBF) ||
    (b == 0xED && 0x80 ≤ c && c ≤ 0x9F) || (0xEE ≤ b && b ≤ 0xEF && 0x80 ≤ c && c ≤ 0xBF)

/-- The second byte of a sequence of four bytes. -/
def secondOfFour (b c : UInt8) : Bool :=
  (b == 0xF0 && 0x90 ≤ c && c ≤ 0xBF) || (0xF1 ≤ b && b ≤ 0xF3 && 0x80 ≤ c && c ≤ 0xBF) ||
    (b == 0xF4 && 0x80 ≤ c && c ≤ 0x8F)

/-- The character at the front of bytes, if they start with one, and how many further bytes it, or
what is replaced, takes. -/
def decodeFirst (b : UInt8) (rest : List UInt8) : Option Char × ℕ :=
  let at' (i : ℕ) : UInt8 := rest.getD i 0
  if b < 0x80 then (some (ofBits b.toNat), 0)
  else if 0xC2 ≤ b && b ≤ 0xDF then
    if isContinuation (at' 0) then (some (ofBits ((b &&& 0x1F).toNat * 64 + low (at' 0))), 1)
    else (none, 0)
  else if 0xE0 ≤ b && b ≤ 0xEF then
    if !secondOfThree b (at' 0) then (none, 0)
    else if !isContinuation (at' 1) then (none, 1)
    else (some (ofBits (((b &&& 0x0F).toNat * 64 + low (at' 0)) * 64 + low (at' 1))), 2)
  else if 0xF0 ≤ b && b ≤ 0xF4 then
    if !secondOfFour b (at' 0) then (none, 0)
    else if !isContinuation (at' 1) then (none, 1)
    else if !isContinuation (at' 2) then (none, 2)
    else (some (ofBits ((((b &&& 0x07).toNat * 64 + low (at' 0)) * 64 + low (at' 1)) * 64 +
      low (at' 2))), 3)
  else (none, 0)

/-- The characters behind some bytes that have been taken. -/
def chars : ℕ → List UInt8 → List Char
  | _, [] => []
  | skip + 1, _ :: rest => chars skip rest
  | 0, b :: rest =>
    let first := decodeFirst b rest
    first.1.getD replacement :: chars first.2 rest

/-- The text of bytes. -/
def fromUtf8Lossy (bytes : List UInt8) : String := String.ofList (chars 0 bytes)

example : fromUtf8Lossy [0x61, 0xFF, 0xE2, 0x82, 0x62, 0xC3, 0xA9] = "a\ufffd\ufffdb\u00e9" := by
  decide

end ChittaField.Lossy
