import StrictUtf8.Reader.Basic

/-! A reader that keeps a record of the calls made on it, with their answers. -/

namespace StrictUtf8

inductive Call (ε : Type) where
  | read (size : Nat) (answer : Except ε (List UInt8))
  | fill (answer : Except ε (List UInt8))
  | consume (count : Nat)

structure Recorded (ρ ε : Type) where
  reader : ρ
  /-- The calls so far, newest first. -/
  calls : List (Call ε) := []

namespace Recorded
variable {ρ ε : Type}

def log (r : Recorded ρ ε) : List (Call ε) := r.calls.reverse

def since (r earlier : Recorded ρ ε) : List (Call ε) :=
  (r.calls.take (r.calls.length - earlier.calls.length)).reverse

instance [Reader ρ ε] : Reader (Recorded ρ ε) ε where
  unread r := Reader.unread r.reader
  read n r :=
    let (answer, reader) := Reader.read n r.reader
    (answer, ⟨reader, .read n answer :: r.calls⟩)
  length_read n r := Reader.length_read n r.reader

instance [BufferedReader ρ ε] : BufferedReader (Recorded ρ ε) ε where
  fill r :=
    let (answer, reader) := BufferedReader.fill r.reader
    (answer, ⟨reader, .fill answer :: r.calls⟩)
  consume n r := ⟨BufferedReader.consume n r.reader, .consume n :: r.calls⟩
  length_fill r := BufferedReader.length_fill r.reader
  length_consume {r r' chunk n} h hn := by
    obtain ⟨h₁, rfl⟩ := Prod.mk.inj h
    exact BufferedReader.length_consume (Prod.ext h₁ rfl) hn

end Recorded
end StrictUtf8
