import StrictUtf8.Length
import StrictUtf8.Scalar.Decode
import StrictUtf8.Text

/-! A cross-check of all entry points on one input against the reference decoders. It stops at the
first disagreement. -/

namespace StrictUtf8.CrossCheck

structure Input where
  bytes : List UInt8
  readSizes : List UInt8
  offset : UInt64
  length : UInt64
  units : List UInt16
deriving DecidableEq, Repr

inductive Disagreement where
  | text
  | cycled
  | unbuffered
  | window
  | units
  | lossyUnits
deriving DecidableEq, Repr

def isText (bytes : List UInt8) : Bool := (decode? bytes).isSome

namespace Input

def cycled (input : Input) : Bytewise Cycled := ⟨⟨input.bytes, input.readSizes, 0⟩⟩

/-- The first read size is the capacity; the default stands in if there is none. -/
def bufferSettings (input : Input) : BufferSettings :=
  match input.readSizes with
  | [] => {}
  | size :: _ => ⟨size.toUInt64⟩

def windowFits (input : Input) : Bool :=
  input.offset.toNat + input.length.toNat < UInt64.size &&
    input.offset.toNat + input.length.toNat ≤ input.bytes.length

def window (input : Input) : List UInt8 :=
  (input.bytes.drop input.offset.toNat).take input.length.toNat

def windowAgrees (input : Input) : Except WindowError Bool → Bool
  | .ok verdict => input.windowFits && verdict == isText input.window
  | .error _ => !input.windowFits

end Input

def isLengthOf (text : List Char) : Except LengthError UInt64 → Bool
  | .ok n => n.toNat == (utf8 text).length
  | .error _ => false

def lengthAgrees (units : List UInt16) (answer : Except LengthError UInt64) : Bool :=
  match decodeUnits units, answer with
  | .ok text, answer => isLengthOf text answer
  | .error index, .error (.unpairedSurrogate found) => found == index
  | .error _, _ => false

def require (holds : Bool) (otherwise : Disagreement) : ExceptT Disagreement Traced Unit :=
  if holds then pure () else throw otherwise

def run (input : Input) : ExceptT Disagreement Traced Unit := do
  let reference := isText input.bytes
  require ((← checkText input.bytes) == reference) .text
  require (certain (check input.cycled).1 == reference) .cycled
  require (certain (checkUnbuffered input.bufferSettings (InMemory.mk input.bytes)).1 == reference)
    .unbuffered
  require (input.windowAgrees (← checkWindow input.bytes input.offset input.length)) .window
  require (lengthAgrees input.units (← utf8Length input.units {})) .units
  let text := decodeLossy input.bytes
  require (isLengthOf text (← utf8Length (utf16 text) {})) .lossyUnits

end StrictUtf8.CrossCheck
