import StrictUtf8.Reader.Basic

/-! A buffer in front of an unbuffered reader. An empty buffer is refilled by one read of its
capacity; a read at least that large on an empty buffer goes straight to the reader. -/

namespace StrictUtf8

structure Block (ρ : Type) where
  capacity : Nat
  held : List UInt8
  reader : ρ
  capacity_pos : 0 < capacity
deriving DecidableEq, Repr

namespace Block
variable {ρ ε : Type}

def wrap (capacity : Nat) (reader : ρ) : Block ρ :=
  ⟨max capacity 1, [], reader, Nat.le_max_right capacity 1⟩

def consume (n : Nat) (b : Block ρ) : Block ρ := { b with held := b.held.drop n }

variable [Reader ρ ε]

def unread (b : Block ρ) : Unread ε := .ofBytes b.held ++ Reader.unread b.reader

def fill (b : Block ρ) : Except ε (List UInt8) × Block ρ :=
  match b.held with
  | [] =>
    match Reader.read b.capacity b.reader with
    | (.ok bytes, reader) => (.ok bytes, { b with held := bytes, reader })
    | (.error e, reader) => (.error e, { b with reader })
  | held => (.ok held, b)

def read (n : Nat) (b : Block ρ) : Except ε (List UInt8) × Block ρ :=
  if b.held = [] ∧ b.capacity ≤ n then
    let (answer, reader) := Reader.read n b.reader
    (answer, { b with reader })
  else
    match b.fill with
    | (.ok held, b) => (.ok (held.take n), b.consume (held.take n).length)
    | (.error e, b) => (.error e, b)

theorem length_fill (b : Block ρ) : (b.fill).2.unread.length ≤ b.unread.length := by
  unfold fill
  split
  · have h := Reader.length_read b.capacity b.reader
    split <;> simp_all [unread]
  · simp

theorem held_of_fill {b b' : Block ρ} {chunk : List UInt8} (h : b.fill = (.ok chunk, b')) :
    b'.held = chunk := by
  unfold fill at h
  split at h
  · split at h
    · simp only [Prod.mk.injEq, Except.ok.injEq] at h
      rw [← h.1, ← h.2]
    · simp at h
  · simp only [Prod.mk.injEq, Except.ok.injEq] at h
    rw [← h.1, ← h.2]

theorem length_consume {b b' : Block ρ} {chunk : List UInt8} {n : Nat}
    (h : b.fill = (.ok chunk, b')) (hn : n ≤ chunk.length) :
    n + (b'.consume n).unread.length ≤ b'.unread.length := by
  rw [← held_of_fill h] at hn
  simp only [unread, consume, List.length_append, Unread.length_ofBytes, List.length_drop]
  omega

theorem length_read (n : Nat) (b : Block ρ) :
    servedCount (b.read n).1 + (b.read n).2.unread.length ≤ b.unread.length := by
  unfold read
  split
  next h =>
    have := Reader.length_read n b.reader
    simp only [unread, h.1, List.length_append, Unread.length_ofBytes, List.length_nil]
    omega
  next =>
    have hfill := length_fill b
    split
    next held b' h =>
      rw [h] at hfill
      have hc := length_consume (n := (held.take n).length) h (List.length_take_le' n held)
      simp only [servedCount_ok] at *
      omega
    next e b' h =>
      rw [h] at hfill
      simpa using hfill

instance : BufferedReader (Block ρ) ε where
  unread := unread
  read := read
  fill := fill
  consume := consume
  length_read := length_read
  length_fill := length_fill
  length_consume := length_consume

end Block
end StrictUtf8
