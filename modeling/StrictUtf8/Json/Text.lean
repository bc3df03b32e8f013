import StrictUtf8.Scalar.Basic

/-! JSON string literals, read as the UTF-16 units they spell. The units need not pair up, since an
escape spells a single unit. -/

namespace StrictUtf8.Json

def hexDigit? (c : Char) : Option Nat :=
  if '0' ≤ c ∧ c ≤ '9' then some (c.toNat - '0'.toNat)
  else if 'a' ≤ c ∧ c ≤ 'f' then some (c.toNat - 'a'.toNat + 10)
  else if 'A' ≤ c ∧ c ≤ 'F' then some (c.toNat - 'A'.toNat + 10)
  else none

def hexUnit? (digits : List Char) : Option UInt16 :=
  (digits.mapM hexDigit?).map fun values => (values.foldl (fun n d => n * 16 + d) 0).toUInt16

def escaped? : Char → Option Char
  | '"' => some '"'
  | '\\' => some '\\'
  | '/' => some '/'
  | 'b' => some '\x08'
  | 'f' => some '\x0C'
  | 'n' => some '\n'
  | 'r' => some '\r'
  | 't' => some '\t'
  | _ => none

/-- The units of one character of a string literal, which may be escaped, and the rest. A quote and
the control characters below `U+0020` must be escaped. -/
def readUnits? : List Char → Option (List UInt16 × List Char)
  | '\\' :: 'u' :: a :: b :: c :: d :: rest => (hexUnit? [a, b, c, d]).map ([·], rest)
  | '\\' :: c :: rest => (escaped? c).map (Scalar.units ·, rest)
  | c :: rest =>
    if c == '"' || c == '\\' || c < ' ' then none else some (Scalar.units c, rest)
  | [] => none

theorem length_readUnits? {cs rest : List Char} {units : List UInt16}
    (h : readUnits? cs = some (units, rest)) : rest.length < cs.length := by
  unfold readUnits? at h
  split at h
  · obtain ⟨_, _, h⟩ := Option.map_eq_some_iff.1 h
    cases h
    simp only [List.length_cons]
    omega
  · obtain ⟨_, _, h⟩ := Option.map_eq_some_iff.1 h
    cases h
    simp only [List.length_cons]
    omega
  · split at h
    · cases h
    · cases h
      exact Nat.lt_succ_self _
  · cases h

def afterQuote? : List Char → Option (List Char)
  | '"' :: rest => some rest
  | _ => none

theorem length_afterQuote? {cs rest : List Char} (h : afterQuote? cs = some rest) :
    rest.length < cs.length := by
  unfold afterQuote? at h
  split at h
  · cases h
    exact Nat.lt_succ_self _
  · cases h

def readText? (done : List UInt16) (cs : List Char) : Option (List UInt16 × List Char) :=
  match _h : readUnits? cs with
  | some (units, rest) => readText? (units.reverse ++ done) rest
  | none => (afterQuote? cs).map (done.reverse, ·)
termination_by cs.length
decreasing_by exact length_readUnits? _h

theorem length_readText? {done units : List UInt16} {cs rest : List Char}
    (h : readText? done cs = some (units, rest)) : rest.length < cs.length := by
  fun_induction readText? done cs with
  | case1 done cs units' rest' hread ih => exact Nat.lt_trans (ih h) (length_readUnits? hread)
  | case2 =>
    obtain ⟨_, hquote, h⟩ := Option.map_eq_some_iff.1 h
    cases h
    exact length_afterQuote? hquote

end StrictUtf8.Json
