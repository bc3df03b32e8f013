/-! What a reader still has to serve, and the two kinds of reader: one that serves bytes on request,
and one that also shows the buffer it would serve from. -/

namespace StrictUtf8

inductive Item (ε : Type) where
  | byte (b : UInt8)
  | eof
  | error (e : ε)
deriving DecidableEq, Repr

/-- All that is still to come, in order, whatever way the bytes are grouped. Past its last item every
request meets the end of input. -/
abbrev Unread (ε : Type) := List (Item ε)

def Unread.ofBytes {ε : Type} (bytes : List UInt8) : Unread ε := bytes.map .byte

@[simp] theorem Unread.length_ofBytes {ε : Type} (bytes : List UInt8) :
    (ofBytes bytes : Unread ε).length = bytes.length := by
  simp [ofBytes]

def servedCount {ε : Type} : Except ε (List UInt8) → Nat
  | .ok bytes => bytes.length
  | .error _ => 0

@[simp] theorem servedCount_ok {ε : Type} (bytes : List UInt8) :
    servedCount (.ok bytes : Except ε (List UInt8)) = bytes.length := rfl

@[simp] theorem servedCount_error {ε : Type} (e : ε) :
    servedCount (.error e : Except ε (List UInt8)) = 0 := rfl

/-- A sequential supply of bytes. `read n` serves at most `n` bytes; no byte means the end of input
(or `n = 0`). Short reads are allowed. What is served leaves the unread items, so every loop over a
reader ends. -/
class Reader (ρ : Type) (ε : outParam Type) where
  unread : ρ → Unread ε
  read : Nat → ρ → Except ε (List UInt8) × ρ
  length_read : ∀ n r, servedCount (read n r).1 + (unread (read n r).2).length ≤ (unread r).length

/-- A reader that shows its buffer. `fill` refills an empty buffer and returns what is buffered, an
empty list at the end of input; `consume n` removes the first `n` of those bytes. -/
class BufferedReader (ρ : Type) (ε : outParam Type) extends Reader ρ ε where
  fill : ρ → Except ε (List UInt8) × ρ
  consume : Nat → ρ → ρ
  length_fill : ∀ r, (unread (fill r).2).length ≤ (unread r).length
  length_consume : ∀ {r r' chunk n}, fill r = (.ok chunk, r') → n ≤ chunk.length →
    n + (unread (consume n r')).length ≤ (unread r').length

structure ReadError where
  kind : String
  message : String
deriving DecidableEq, Repr

end StrictUtf8
