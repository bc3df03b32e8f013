/-! Byte classes of UTF-8 and the test for a complete multi-byte sequence. The test never decodes:
a lead selects the width, and the second byte is held against the few leads that restrict it. -/

namespace StrictUtf8.Sequence

def isAscii (byte : UInt8) : Bool := byte < 0x80

def isTrailing (byte : UInt8) : Bool := byte &&& 0xC0 == 0x80

/-- The number of bytes in the sequence that `lead` starts. A byte that starts no multi-byte
sequence counts alone: trailing bytes, `C0` and `C1` (overlong forms only), and all above `F4`. -/
def width (lead : UInt8) : Nat :=
  if lead < 0xC2 then 1
  else if lead < 0xE0 then 2
  else if lead < 0xF0 then 3
  else if lead ≤ 0xF4 then 4
  else 1

/-- The plane of a 4-byte form: three payload bits of the lead, then the upper two payload bits of
the second byte. -/
def plane (lead second : UInt8) : UInt8 :=
  ((lead &&& 0x07) <<< 2) ||| ((second &&& 0x30) >>> 4)

/-- Whether `trailing` completes a well-formed sequence after a lead of that width. An `E0` lead
needs a second byte from `A0` on (overlong below), an `ED` lead one below `A0` (surrogates from there
on), and a 4-byte form must lie in planes 1 to 16. -/
def completes (lead : UInt8) : List UInt8 → Bool
  | [second] => isTrailing second
  | [second, third] =>
    isTrailing second && !(lead == 0xE0 && second < 0xA0) && !(lead == 0xED && second ≥ 0xA0) &&
      isTrailing third
  | [second, third, fourth] =>
    isTrailing second && (1 ≤ plane lead second && plane lead second ≤ 16) && isTrailing third &&
      isTrailing fourth
  | _ => false

example : plane 0xF0 0x8F = 0 ∧ plane 0xF0 0x90 = 1 ∧ plane 0xF4 0x8F = 16 ∧ plane 0xF4 0x90 = 17 := by
  decide

end StrictUtf8.Sequence
