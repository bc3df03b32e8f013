import StrictUtf8.Reader.Basic

/-! Bytes in memory as readers that never fail: one that serves all that is asked for, and one with reads of
prescribed sizes, taken in turn and over again. -/

namespace StrictUtf8

structure InMemory where
  rest : List UInt8
deriving DecidableEq, Repr

namespace InMemory

def read (n : Nat) (r : InMemory) : Except Empty (List UInt8) × InMemory :=
  (.ok (r.rest.take n), ⟨r.rest.drop n⟩)

instance : Reader InMemory Empty where
  unread r := .ofBytes r.rest
  read := read
  length_read n r := by
    simp only [read, servedCount_ok, Unread.length_ofBytes, List.length_take, List.length_drop]
    omega

end InMemory

def certain {α : Type} : Except Empty α → α
  | .ok a => a

structure Cycled where
  rest : List UInt8
  sizes : List UInt8
  /-- Goes up with every read, and wraps around. -/
  counter : UInt64
deriving DecidableEq, Repr

namespace Cycled

def reads (c : Cycled) : Nat := c.counter.toNat

def nextSize (n : Nat) (c : Cycled) : Nat :=
  if h : 0 < c.sizes.length then max 1 (c.sizes.get ⟨c.reads % c.sizes.length, Nat.mod_lt _ h⟩).toNat
  else n

def read (n : Nat) (c : Cycled) : Except Empty (List UInt8) × Cycled :=
  let count := min (c.nextSize n) n
  (.ok (c.rest.take count), { c with rest := c.rest.drop count, counter := c.counter + 1 })

instance : Reader Cycled Empty where
  unread c := .ofBytes c.rest
  read := read
  length_read n c := by
    simp only [read, servedCount_ok, Unread.length_ofBytes, List.length_take, List.length_drop]
    omega

end Cycled
end StrictUtf8
