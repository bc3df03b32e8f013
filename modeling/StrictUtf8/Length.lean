import StrictUtf8.Scalar.Basic
import StrictUtf8.Trace

/-! The UTF-8 length of UTF-16 text, computed without encoding it. Each unit is counted as one byte; a scan
adds up what the units need on top: nothing for ASCII, 1 below `0x800`, 2 for other units and for a
surrogate pair (whose second unit is skipped). It goes in three stages: an ASCII prefix, units below
`0x800`, the general scan. -/

namespace StrictUtf8

inductive LengthError where
  | unpairedSurrogate (index : Nat)
  | overflow (computed limit : UInt64)
deriving DecidableEq, Repr

def LengthError.message : LengthError → String
  | .unpairedSurrogate index => s!"unpaired surrogate at index {index}"
  | .overflow computed limit => s!"UTF-8 length does not fit in {limit} bytes: {computed}"

structure Scan where
  rest : List UInt16
  index : Nat
  extra : UInt64
deriving DecidableEq, Repr

namespace Scan

def start (units : List UInt16) (index : Nat) : Scan := ⟨units.drop index, index, 0⟩

/-- 1 for `0x80` to `0x7FF`, 0 for ASCII: `0x7F - unit` wraps around, which sets the top bit, exactly
when the unit is above `0x7F`. -/
def narrowExtra (unit : UInt16) : UInt64 := ((0x7F - unit) >>> 15).toUInt64

def narrowTurn (s : Scan) : Option Scan :=
  match s.rest with
  | [] => none
  | unit :: rest =>
    if unit < 0x800 then some ⟨rest, s.index + 1, s.extra + narrowExtra unit⟩ else none

theorem length_narrowTurn {s next : Scan} (h : s.narrowTurn = some next) :
    next.rest.length < s.rest.length := by
  unfold narrowTurn at h
  split at h
  · cases h
  next hs =>
    split at h
    · cases h
      exact hs ▸ Nat.lt_succ_self _
    · cases h

def skipNarrow (s : Scan) : Scan :=
  match _h : s.narrowTurn with
  | some next => next.skipNarrow
  | none => s
termination_by s.rest.length
decreasing_by exact length_narrowTurn _h

inductive Turn where
  | finished
  | moved (next : Scan)
  | unpaired (unit : UInt16)
deriving DecidableEq, Repr

def turn (s : Scan) : Turn :=
  match s.rest with
  | [] => .finished
  | unit :: rest =>
    if unit < 0x800 then .moved ⟨rest, s.index + 1, s.extra + narrowExtra unit⟩
    else if !isSurrogate unit then .moved ⟨rest, s.index + 1, s.extra + 2⟩
    else if startsPair s.rest then .moved ⟨rest.drop 1, s.index + 2, s.extra + 2⟩
    else .unpaired unit

theorem length_turn {s next : Scan} (h : s.turn = .moved next) : next.rest.length < s.rest.length := by
  unfold turn at h
  split at h
  · simp at h
  next unit rest hs =>
    split at h
    · cases h
      exact hs ▸ Nat.lt_succ_self _
    split at h
    · cases h
      exact hs ▸ Nat.lt_succ_self _
    split at h
    · cases h
      simp only [hs, List.length_cons, List.length_drop]
      omega
    · cases h

def run (s : Scan) : Traced (Except LengthError UInt64) :=
  match _h : s.turn with
  | .finished => pure (.ok s.extra)
  | .moved next => run next
  | .unpaired unit => do
    .emit (.unpairedSurrogate s.index unit)
    pure (.error (.unpairedSurrogate s.index))
termination_by s.rest.length
decreasing_by exact length_turn _h

end Scan

def extraFrom (units : List UInt16) (index : Nat) : Traced (Except LengthError UInt64) :=
  (Scan.start units index).run

structure LengthSettings where
  /-- The largest length reported as a success; by default the largest possible allocation. -/
  maxLength : UInt64 := 0x7FFFFFFFFFFFFFFF
deriving DecidableEq, Repr

def fitLength (computed limit : UInt64) : Traced (Except LengthError UInt64) :=
  if computed ≤ limit then pure (.ok computed)
  else do
    .emit (.lengthOverflow computed limit)
    pure (.error (.overflow computed limit))

def extraBytes (units : List UInt16) : Traced (Except LengthError UInt64) :=
  let narrow := (Scan.start units (units.findIdx (0x7F < ·))).skipNarrow
  match narrow.rest with
  | [] => pure (.ok narrow.extra)
  | _ => do return (← extraFrom units narrow.index).map (narrow.extra + ·)

/-- The number of bytes `units` takes in UTF-8. An unpaired surrogate is reported before a length
above the limit. Three bytes a unit at most, so the sum does not wrap around. -/
def utf8Length (units : List UInt16) (settings : LengthSettings) :
    Traced (Except LengthError UInt64) := do
  match ← extraBytes units with
  | .error e => return .error e
  | .ok extra => fitLength (units.length.toUInt64 + extra) settings.maxLength

end StrictUtf8
