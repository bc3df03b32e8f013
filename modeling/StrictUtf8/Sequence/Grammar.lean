/-! The table of well-formed UTF-8 byte sequences, one constructor a row, and the texts they make up.
It says what well-formed means without any reference to how a check proceeds. -/

namespace StrictUtf8

def Between (lo hi byte : UInt8) : Prop := lo ≤ byte ∧ byte ≤ hi

instance (lo hi byte : UInt8) : Decidable (Between lo hi byte) :=
  inferInstanceAs (Decidable (_ ∧ _))

abbrev Tail (byte : UInt8) : Prop := Between 0x80 0xBF byte

inductive CharSequence : List UInt8 → Prop
  | ascii {a} : a ≤ 0x7F → CharSequence [a]
  | two {a b} : Between 0xC2 0xDF a → Tail b → CharSequence [a, b]
  | e0 {b c} : Between 0xA0 0xBF b → Tail c → CharSequence [0xE0, b, c]
  | e1 {a b c} : Between 0xE1 0xEC a → Tail b → Tail c → CharSequence [a, b, c]
  | ed {b c} : Between 0x80 0x9F b → Tail c → CharSequence [0xED, b, c]
  | ee {a b c} : Between 0xEE 0xEF a → Tail b → Tail c → CharSequence [a, b, c]
  | f0 {b c d} : Between 0x90 0xBF b → Tail c → Tail d → CharSequence [0xF0, b, c, d]
  | f1 {a b c d} : Between 0xF1 0xF3 a → Tail b → Tail c → Tail d → CharSequence [a, b, c, d]
  | f4 {b c d} : Between 0x80 0x8F b → Tail c → Tail d → CharSequence [0xF4, b, c, d]

inductive WellFormed : List UInt8 → Prop
  | nil : WellFormed []
  | append {s rest} : CharSequence s → WellFormed rest → WellFormed (s ++ rest)

/-- How many bytes a byte that is not ASCII asks for, itself included, by ranges. -/
inductive Selects : UInt8 → Nat → Prop
  | trailing {a} : Between 0x80 0xC1 a → Selects a 1
  | two {a} : Between 0xC2 0xDF a → Selects a 2
  | three {a} : Between 0xE0 0xEF a → Selects a 3
  | four {a} : Between 0xF0 0xF4 a → Selects a 4
  | above {a} : Between 0xF5 0xFF a → Selects a 1

def LongestPrefix (bytes : List UInt8) (n : Nat) : Prop :=
  n ≤ bytes.length ∧ WellFormed (bytes.take n) ∧
    ∀ m, m ≤ bytes.length → WellFormed (bytes.take m) → m ≤ n

end StrictUtf8
