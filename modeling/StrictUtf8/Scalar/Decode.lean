import StrictUtf8.Scalar.Basic
import StrictUtf8.Sequence.Basic

/-! Reference decoders. They compute scalar values from payload bits and test the values, where the
checks of this library only look at bytes and units. -/

namespace StrictUtf8
namespace Scalar

structure Form where
  following : Nat
  payload : Nat
  /-- The least value that needs this form. -/
  least : Nat
deriving DecidableEq, Repr

def form? (byte : UInt8) : Option Form :=
  if byte < 0x80 then some ⟨0, byte.toNat, 0⟩
  else if byte < 0xC0 then none
  else if byte < 0xE0 then some ⟨1, byte.toNat - 0xC0, 0x80⟩
  else if byte < 0xF0 then some ⟨2, byte.toNat - 0xE0, 0x800⟩
  else if byte < 0xF8 then some ⟨3, byte.toNat - 0xF0, 0x10000⟩
  else none

def extend? : Nat → Nat → List UInt8 → Option (Nat × List UInt8)
  | 0, value, bytes => some (value, bytes)
  | n + 1, value, byte :: bytes =>
    if 0x80 ≤ byte ∧ byte < 0xC0 then extend? n (value * 64 + (byte.toNat - 0x80)) bytes else none
  | _ + 1, _, [] => none

/-- The scalar value at the front and the bytes after it. The value must need its form, so no overlong
form is read, and no surrogate or number above `10FFFF`. -/
def read? : List UInt8 → Option (Char × List UInt8)
  | [] => none
  | byte :: bytes => do
    let form ← form? byte
    let (value, rest) ← extend? form.following form.payload bytes
    if form.least ≤ value ∧ value.isValidChar then some (Char.ofNat value, rest) else none

theorem length_extend? {n value result : Nat} {bytes rest : List UInt8}
    (h : extend? n value bytes = some (result, rest)) : rest.length ≤ bytes.length := by
  fun_induction extend? n value bytes with
  | case1 => cases h; exact Nat.le_refl _
  | case2 n value byte bytes _ ih => exact Nat.le_succ_of_le (ih h)
  | case3 => cases h
  | case4 => cases h

theorem length_read? {c : Char} {bytes rest : List UInt8} (h : read? bytes = some (c, rest)) :
    rest.length < bytes.length := by
  match bytes with
  | [] => cases h
  | byte :: bytes =>
    simp only [read?, Option.bind_eq_bind, Option.bind_eq_some_iff] at h
    obtain ⟨form, -, ⟨value, rest'⟩, hextend, hvalue⟩ := h
    split at hvalue
    · cases hvalue
      exact Nat.lt_succ_of_le (length_extend? hextend)
    · cases hvalue

def canBegin (lead second : UInt8) : Bool :=
  Sequence.isTrailing second &&
    !(lead == 0xE0 && second < 0xA0) && !(lead == 0xED && second ≥ 0xA0) &&
    !(lead == 0xF0 && second < 0x90) && !(lead == 0xF4 && second ≥ 0x90)

/-- How many bytes one replacement stands for: as many as could begin some well-formed sequence, at
least one. -/
def illFormedCount : List UInt8 → Nat
  | lead :: second :: bytes =>
    if Sequence.width lead = 1 || !canBegin lead second then 1
    else 2 + ((bytes.take (Sequence.width lead - 3)).takeWhile Sequence.isTrailing).length
  | _ => 1

theorem illFormedCount_pos (bytes : List UInt8) : 0 < illFormedCount bytes := by
  unfold illFormedCount
  split
  · split <;> omega
  · exact Nat.one_pos

end Scalar

def decodeFrom (done : List Char) (bytes : List UInt8) : Option (List Char) :=
  match _h : Scalar.read? bytes with
  | some (c, rest) => decodeFrom (c :: done) rest
  | none => if bytes = [] then some done.reverse else none
termination_by bytes.length
decreasing_by exact Scalar.length_read? _h

def decode? (bytes : List UInt8) : Option (List Char) := decodeFrom [] bytes

def decodeLossyFrom (done : List Char) (bytes : List UInt8) : List Char :=
  match _h : Scalar.read? bytes with
  | some (c, rest) => decodeLossyFrom (c :: done) rest
  | none =>
    if _hne : bytes = [] then done.reverse
    else decodeLossyFrom (Scalar.replacement :: done) (bytes.drop (Scalar.illFormedCount bytes))
termination_by bytes.length
decreasing_by
  · exact Scalar.length_read? _h
  · have := Scalar.illFormedCount_pos bytes
    have := List.length_pos_iff.mpr _hne
    simp only [List.length_drop]
    omega

def decodeLossy (bytes : List UInt8) : List Char := decodeLossyFrom [] bytes

namespace Scalar

def ofPair (high low : UInt16) : Char :=
  Char.ofNat (0x10000 + (high.toNat - 0xD800) * 0x400 + (low.toNat - 0xDC00))

end Scalar

def decodeUnitsFrom (index : Nat) (done : List Char) : List UInt16 → Except Nat (List Char)
  | [] => .ok done.reverse
  | unit :: units =>
    if isSurrogate unit then
      match units with
      | low :: units =>
        if isHighSurrogate unit && isLowSurrogate low then
          decodeUnitsFrom (index + 2) (Scalar.ofPair unit low :: done) units
        else .error index
      | [] => .error index
    else decodeUnitsFrom (index + 1) (Char.ofNat unit.toNat :: done) units

/-- The text that `units` encode, or the index of the first unpaired surrogate. -/
def decodeUnits (units : List UInt16) : Except Nat (List Char) := decodeUnitsFrom 0 [] units

end StrictUtf8
