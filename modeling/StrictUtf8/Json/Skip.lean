import StrictUtf8.Json.Token

/-! Passing over one JSON value of any depth without building it. The arrays and objects still open are
kept in a list, the innermost first. -/

namespace StrictUtf8.Json

inductive Frame where
  | array
  | object
deriving DecidableEq, Repr

mutual

def skipValue? (frames : List Frame) : List Token → Option (List Token)
  | .word :: rest => skipRest? frames rest
  | .number _ :: rest => skipRest? frames rest
  | .text _ :: rest => skipRest? frames rest
  | .openBracket :: .closeBracket :: rest => skipRest? frames rest
  | .openBracket :: rest => skipValue? (.array :: frames) rest
  | .openBrace :: .closeBrace :: rest => skipRest? frames rest
  | .openBrace :: .text _ :: .colon :: rest => skipValue? (.object :: frames) rest
  | _ => none

/-- What is left after the rest of the `frames`, the innermost of which has just got a value. -/
def skipRest? : List Frame → List Token → Option (List Token)
  | [], rest => some rest
  | .array :: frames, .comma :: rest => skipValue? (.array :: frames) rest
  | .array :: frames, .closeBracket :: rest => skipRest? frames rest
  | .object :: frames, .comma :: .text _ :: .colon :: rest => skipValue? (.object :: frames) rest
  | .object :: frames, .closeBrace :: rest => skipRest? frames rest
  | _, _ => none

end

mutual

theorem length_skipValue? {frames : List Frame} {tokens rest : List Token}
    (h : skipValue? frames tokens = some rest) : rest.length < tokens.length := by
  unfold skipValue? at h
  split at h
  case h_8 => cases h
  case h_5 => exact Nat.lt_succ_of_lt (length_skipValue? h)
  case h_7 => exact Nat.lt_succ_of_lt (Nat.lt_succ_of_lt (Nat.lt_succ_of_lt (length_skipValue? h)))
  case h_4 => exact Nat.lt_succ_of_le (Nat.le_succ_of_le (length_skipRest? h))
  case h_6 => exact Nat.lt_succ_of_le (Nat.le_succ_of_le (length_skipRest? h))
  all_goals exact Nat.lt_succ_of_le (length_skipRest? h)
termination_by tokens.length

theorem length_skipRest? {frames : List Frame} {tokens rest : List Token}
    (h : skipRest? frames tokens = some rest) : rest.length ≤ tokens.length := by
  unfold skipRest? at h
  split at h
  · cases h
    exact Nat.le_refl _
  · exact Nat.le_succ_of_le (Nat.le_of_lt (length_skipValue? h))
  · exact Nat.le_succ_of_le (length_skipRest? h)
  · exact Nat.le_trans (Nat.le_of_lt (length_skipValue? h)) (Nat.le_add_right _ 3)
  · exact Nat.le_succ_of_le (length_skipRest? h)
  · cases h
termination_by tokens.length

end

end StrictUtf8.Json
