/-! JSON numbers. Only one that is written as a plain integer without a sign has a value here: such a
numeral is what a setting may hold. -/

namespace StrictUtf8.Json

def afterDigits? : List Char → Option (List Char)
  | c :: rest => if c.isDigit then some (rest.dropWhile Char.isDigit) else none
  | [] => none

def afterFraction? : List Char → Option (List Char)
  | '.' :: rest => afterDigits? rest
  | cs => some cs

def afterSign : List Char → List Char
  | '+' :: rest => rest
  | '-' :: rest => rest
  | cs => cs

def afterExponent? : List Char → Option (List Char)
  | 'e' :: rest => afterDigits? (afterSign rest)
  | 'E' :: rest => afterDigits? (afterSign rest)
  | cs => some cs

def readInteger? : List Char → Option (List Char × List Char)
  | '0' :: rest => some (['0'], rest)
  | c :: rest =>
    if c.isDigit then some (c :: rest.takeWhile Char.isDigit, rest.dropWhile Char.isDigit) else none
  | [] => none

def isContinued : List Char → Bool
  | '.' :: _ | 'e' :: _ | 'E' :: _ => true
  | _ => false

def readUnsigned? (cs : List Char) : Option (Option Nat × List Char) :=
  (readInteger? cs).bind fun (digits, rest) =>
    if isContinued rest then ((afterFraction? rest).bind afterExponent?).map (none, ·)
    else some (some (Nat.ofDigitChars 10 digits 0), rest)

def readNumber? : List Char → Option (Option Nat × List Char)
  | '-' :: rest => (readUnsigned? rest).map fun (_, rest) => (none, rest)
  | cs => readUnsigned? cs

theorem length_afterDigits? {cs rest : List Char} (h : afterDigits? cs = some rest) :
    rest.length ≤ cs.length := by
  match cs with
  | [] => cases h
  | c :: cs =>
    simp only [afterDigits?] at h
    split at h
    · cases h
      exact Nat.le_succ_of_le (List.dropWhile_suffix _).length_le
    · cases h

theorem length_afterFraction? {cs rest : List Char} (h : afterFraction? cs = some rest) :
    rest.length ≤ cs.length := by
  unfold afterFraction? at h
  split at h
  · exact Nat.le_succ_of_le (length_afterDigits? h)
  · cases h
    exact Nat.le_refl _

theorem length_afterSign (cs : List Char) : (afterSign cs).length ≤ cs.length := by
  unfold afterSign
  split <;> simp

theorem length_afterExponent? {cs rest : List Char} (h : afterExponent? cs = some rest) :
    rest.length ≤ cs.length := by
  unfold afterExponent? at h
  split at h
  · exact Nat.le_succ_of_le (Nat.le_trans (length_afterDigits? h) (length_afterSign _))
  · exact Nat.le_succ_of_le (Nat.le_trans (length_afterDigits? h) (length_afterSign _))
  · cases h
    exact Nat.le_refl _

theorem length_readInteger? {cs digits rest : List Char} (h : readInteger? cs = some (digits, rest)) :
    rest.length < cs.length := by
  unfold readInteger? at h
  split at h
  · cases h
    exact Nat.lt_succ_self _
  · split at h
    · cases h
      exact Nat.lt_succ_of_le (List.dropWhile_suffix _).length_le
    · cases h
  · cases h

theorem length_readUnsigned? {cs rest : List Char} {natural : Option Nat}
    (h : readUnsigned? cs = some (natural, rest)) : rest.length < cs.length := by
  obtain ⟨⟨digits, after⟩, hinteger, h⟩ := Option.bind_eq_some_iff.1 h
  refine Nat.lt_of_le_of_lt ?_ (length_readInteger? hinteger)
  dsimp only at h
  split at h
  · obtain ⟨_, h, heq⟩ := Option.map_eq_some_iff.1 h
    obtain ⟨_, hfraction, hexponent⟩ := Option.bind_eq_some_iff.1 h
    cases heq
    exact Nat.le_trans (length_afterExponent? hexponent) (length_afterFraction? hfraction)
  · cases h
    exact Nat.le_refl _

theorem length_readNumber? {cs rest : List Char} {natural : Option Nat}
    (h : readNumber? cs = some (natural, rest)) : rest.length < cs.length := by
  unfold readNumber? at h
  split at h
  · obtain ⟨_, hunsigned, h⟩ := Option.map_eq_some_iff.1 h
    cases h
    exact Nat.lt_succ_of_lt (length_readUnsigned? hunsigned)
  · exact length_readUnsigned? h

end StrictUtf8.Json
