import StrictUtf8.Feed.Check
import StrictUtf8.Trace

/-! The check of bytes in memory, whole or through a window. A rejected text emits one event with the number
of bytes the check had consumed when it stopped. An invalid window is reported by the first bound it
breaks: a sum that does not fit, then the start, then the stop, then their order. -/

namespace StrictUtf8

inductive WindowError where
  | startPastEnd (start size : Nat)
  | stopPastEnd (stop size : Nat)
  | stopBeforeStart (start stop : Nat)
  | sumOverflow (offset length : UInt64)
deriving DecidableEq, Repr

def WindowError.message : WindowError → String
  | .startPastEnd start size => s!"start index ({start}) must not be greater than size ({size})"
  | .stopPastEnd stop size => s!"end index ({stop}) must not be greater than size ({size})"
  | .stopBeforeStart start stop =>
    s!"end index ({stop}) must not be less than start index ({start})"
  | .sumOverflow offset length => s!"window of {length} bytes at offset {offset} overflows usize"

structure Window (size : Nat) where
  start : Nat
  stop : Nat
  start_le_stop : start ≤ stop := by omega
  stop_le_size : stop ≤ size := by omega
deriving DecidableEq, Repr

namespace Window

def ofBounds (start stop size : Nat) : Except WindowError (Window size) :=
  if h₁ : size < start then .error (.startPastEnd start size)
  else if h₂ : size < stop then .error (.stopPastEnd stop size)
  else if h₃ : stop < start then .error (.stopBeforeStart start stop)
  else .ok { start, stop }

def checkedAdd (a b : UInt64) : Option UInt64 :=
  if a + b < a then none else some (a + b)

def ofOffset (offset length : UInt64) (size : Nat) : Except WindowError (Window size) :=
  match checkedAdd offset length with
  | none => .error (.sumOverflow offset length)
  | some stop => ofBounds offset.toNat stop.toNat size

def slice {α : Type} (xs : List α) (w : Window xs.length) : List α :=
  (xs.take w.stop).drop w.start

end Window
open Sequence

def checkTail (bytes tail : List UInt8) : Traced Bool :=
  let (answer, left) := check (InMemory.mk tail)
  if certain answer then pure true
  else do
    .emit (.illFormed (bytes.length - left.rest.length))
    pure false

def checkText (bytes : List UInt8) : Traced Bool :=
  match bytes.dropWhile isAscii with
  | [] => pure true
  | tail => checkTail bytes tail

def checkWindow (bytes : List UInt8) (offset length : UInt64) : Traced (Except WindowError Bool) :=
  match Window.ofOffset offset length bytes.length with
  | .error e => pure (.error e)
  | .ok window => .ok <$> checkText (Window.slice bytes window)

end StrictUtf8
