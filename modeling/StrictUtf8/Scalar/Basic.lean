/-! Scalar values and their two encodings, and the surrogate units of UTF-16. A `Char` is a scalar value, so a
text is a `List Char`. -/

namespace StrictUtf8

def utf8 (text : List Char) : List UInt8 := text.flatMap String.utf8EncodeChar

namespace Scalar

/-- The offset of a supplementary scalar value: the 20 bits that a surrogate pair shares out. -/
def supplement (c : Char) : Nat := c.toNat - 0x10000

def units (c : Char) : List UInt16 :=
  if c.toNat < 0x10000 then [c.toNat.toUInt16]
  else [(0xD800 + supplement c / 0x400).toUInt16, (0xDC00 + supplement c % 0x400).toUInt16]

def replacement : Char := '\uFFFD'

end Scalar

def utf16 (text : List Char) : List UInt16 := text.flatMap Scalar.units

theorem utf8_append (s t : List Char) : utf8 (s ++ t) = utf8 s ++ utf8 t := List.flatMap_append

theorem utf16_append (s t : List Char) : utf16 (s ++ t) = utf16 s ++ utf16 t := List.flatMap_append

def isHighSurrogate (unit : UInt16) : Bool := 0xD800 ≤ unit && unit ≤ 0xDBFF

def isLowSurrogate (unit : UInt16) : Bool := 0xDC00 ≤ unit && unit ≤ 0xDFFF

def isSurrogate (unit : UInt16) : Bool := 0xD800 ≤ unit && unit ≤ 0xDFFF

def startsPair : List UInt16 → Bool
  | high :: low :: _ => isHighSurrogate high && isLowSurrogate low
  | _ => false

/-- The unit at `i` is a surrogate whose partner is not where it should be: a high one without a low
one after it, or a low one without a high one before it. -/
def Unpaired (units : List UInt16) (i : Nat) : Prop :=
  ∃ unit, units[i]? = some unit ∧
    ((isHighSurrogate unit = true ∧ ∀ next, units[i + 1]? = some next → isLowSurrogate next = false) ∨
      (isLowSurrogate unit = true ∧
        ∀ k previous, i = k + 1 → units[k]? = some previous → isHighSurrogate previous = false))

end StrictUtf8
