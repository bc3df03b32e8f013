import StrictUtf8.Reader.Basic

/-! A position in bytes held in memory, as a buffered reader whose buffer is all that follows. A
position past the end meets the end of input and stays. -/

namespace StrictUtf8

structure Cursor where
  rest : List UInt8
  position : Nat
deriving DecidableEq, Repr

namespace Cursor

def ofBytes (bytes : List UInt8) (position : Nat) : Cursor := ⟨bytes.drop position, position⟩

def consume (n : Nat) (c : Cursor) : Cursor := ⟨c.rest.drop n, c.position + n⟩

def read {ε : Type} (n : Nat) (c : Cursor) : Except ε (List UInt8) × Cursor :=
  (.ok (c.rest.take n), c.consume (c.rest.take n).length)

instance : BufferedReader Cursor ReadError where
  unread c := .ofBytes c.rest
  read := read
  fill c := (.ok c.rest, c)
  consume := consume
  length_read n c := by
    simp only [read, consume, servedCount_ok, Unread.length_ofBytes, List.length_take, List.length_drop]
    omega
  length_fill _ := Nat.le_refl _
  length_consume h hn := by
    obtain ⟨h, rfl⟩ := Prod.mk.inj h
    cases h
    simp only [consume, Unread.length_ofBytes, List.length_drop]
    omega

end Cursor
end StrictUtf8
