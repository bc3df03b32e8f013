import StrictUtf8.Feed.Check
import StrictUtf8.Json.Skip
import StrictUtf8.Length
import StrictUtf8.Scalar.Decode

/-! The JSON form of the settings: an object with one known field, or an array of at most that field.
An absent field has its default, unknown fields are passed over, and a repeated field is refused. -/

namespace StrictUtf8
open Json

structure Field where
  name : List Char
  default : UInt64
deriving DecidableEq, Repr

namespace Field

def readValue? : List Token → Option (UInt64 × List Token)
  | .number (some n) :: rest => if n < UInt64.size then some (n.toUInt64, rest) else none
  | _ => none

theorem length_readValue? {tokens rest : List Token} {value : UInt64}
    (h : readValue? tokens = some (value, rest)) : rest.length < tokens.length := by
  unfold readValue? at h
  split at h
  · split at h
    · cases h
      exact Nat.lt_succ_self _
    · cases h
  · cases h

/-- One member at the front of an object: what is known of the field's value after it, and the rest. A
name must be a text, so its surrogates pair up. -/
def readMember? (field : Field) (found : Option UInt64) :
    List Token → Option (Option UInt64 × List Token)
  | .text units :: .colon :: rest =>
    match decodeUnits units with
    | .error _ => none
    | .ok name =>
      if name = field.name then
        if found.isSome then none else (readValue? rest).map fun (value, rest) => (some value, rest)
      else (skipValue? [] rest).map (found, ·)
  | _ => none

theorem length_readMember? {field : Field} {found found' : Option UInt64} {tokens rest : List Token}
    (h : field.readMember? found tokens = some (found', rest)) : rest.length < tokens.length := by
  unfold readMember? at h
  split at h
  · split at h
    · cases h
    · split at h
      · split at h
        · cases h
        · obtain ⟨_, hvalue, h⟩ := Option.map_eq_some_iff.1 h
          cases h
          exact Nat.lt_succ_of_lt (Nat.lt_succ_of_lt (length_readValue? hvalue))
      · obtain ⟨_, hskip, h⟩ := Option.map_eq_some_iff.1 h
        cases h
        exact Nat.lt_succ_of_lt (Nat.lt_succ_of_lt (length_skipValue? hskip))
  · cases h

def readMembers? (field : Field) (found : Option UInt64) (tokens : List Token) : Option UInt64 :=
  match _h : field.readMember? found tokens with
  | some (found, .comma :: rest) => readMembers? field found rest
  | some (found, [.closeBrace]) => some (found.getD field.default)
  | _ => none
termination_by tokens.length
decreasing_by exact Nat.lt_of_succ_lt (length_readMember? _h)

def ofTokens? (field : Field) : List Token → Option UInt64
  | [.openBrace, .closeBrace] => some field.default
  | .openBrace :: rest => field.readMembers? none rest
  | [.openBracket, .closeBracket] => some field.default
  | .openBracket :: rest =>
    match readValue? rest with
    | some (value, [.closeBracket]) => some value
    | _ => none
  | _ => none

def ofJson? (field : Field) (json : List Char) : Option UInt64 := (tokens? json).bind field.ofTokens?

def toJson (field : Field) (value : UInt64) : List Char :=
  ['{', '"'] ++ field.name ++ ['"', ':'] ++ Nat.toDigits 10 value.toNat ++ ['}']

end Field

namespace LengthSettings

def field : Field := ⟨"max_encoded_length".toList, ({} : LengthSettings).maxLength⟩

def ofJson? (json : String) : Option LengthSettings := (field.ofJson? json.toList).map (⟨·⟩)

def toJson (settings : LengthSettings) : String := String.ofList (field.toJson settings.maxLength)

end LengthSettings

namespace BufferSettings

def field : Field := ⟨"buffer_capacity".toList, ({} : BufferSettings).capacity⟩

def ofJson? (json : String) : Option BufferSettings := (field.ofJson? json.toList).map (⟨·⟩)

def toJson (settings : BufferSettings) : String := String.ofList (field.toJson settings.capacity)

end BufferSettings
end StrictUtf8
