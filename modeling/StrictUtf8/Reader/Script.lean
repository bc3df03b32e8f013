import StrictUtf8.Reader.Basic

/-! A reader that plays a list of events: runs of bytes, ends of input and failures. A request never
spans two events. As a buffered reader, its buffer is the run of bytes in front. -/

namespace StrictUtf8
variable {ε : Type}

inductive Script.Event (ε : Type) where
  | data (head : UInt8) (tail : List UInt8)
  | eof
  | error (e : ε)
deriving DecidableEq, Repr

structure Script (ε : Type) where
  events : List (Script.Event ε)
deriving DecidableEq, Repr

namespace Script

def Event.items : Event ε → Unread ε
  | .data head tail => .ofBytes (head :: tail)
  | .eof => [.eof]
  | .error e => [.error e]

def push (bytes : List UInt8) (events : List (Event ε)) : Script ε :=
  match bytes with
  | [] => ⟨events⟩
  | head :: tail => ⟨.data head tail :: events⟩

def unread (s : Script ε) : Unread ε := s.events.flatMap Event.items

def read (n : Nat) (s : Script ε) : Except ε (List UInt8) × Script ε :=
  if n = 0 then (.ok [], s)
  else match s.events with
    | [] => (.ok [], s)
    | .data head tail :: events => (.ok ((head :: tail).take n), push ((head :: tail).drop n) events)
    | .eof :: events => (.ok [], ⟨events⟩)
    | .error e :: events => (.error e, ⟨events⟩)

def fill (s : Script ε) : Except ε (List UInt8) × Script ε :=
  match s.events with
  | [] => (.ok [], s)
  | .data head tail :: _ => (.ok (head :: tail), s)
  | .eof :: events => (.ok [], ⟨events⟩)
  | .error e :: events => (.error e, ⟨events⟩)

def consume (n : Nat) (s : Script ε) : Script ε :=
  match s.events with
  | .data head tail :: events => push ((head :: tail).drop n) events
  | _ => s

def Event.size : Event ε → Nat
  | .data _ tail => tail.length + 1
  | _ => 0

def bytesLeft (s : Script ε) : Nat := s.events.foldr (fun event total => event.size + total) 0

@[simp] theorem unread_push (bytes : List UInt8) (events : List (Event ε)) :
    (push bytes events).unread = .ofBytes bytes ++ unread ⟨events⟩ := by
  cases bytes <;> rfl

@[simp] theorem unread_cons (event : Event ε) (events : List (Event ε)) :
    unread ⟨event :: events⟩ = event.items ++ unread ⟨events⟩ := rfl

theorem length_read (n : Nat) (s : Script ε) :
    servedCount (s.read n).1 + (s.read n).2.unread.length ≤ s.unread.length := by
  obtain ⟨events⟩ := s
  unfold read
  split
  · simp
  · match events with
    | [] => simp
    | .data head tail :: events =>
      simp only [servedCount_ok, unread_push, unread_cons, Event.items, List.length_append,
        Unread.length_ofBytes, List.length_take, List.length_drop]
      omega
    | .eof :: events => simp
    | .error e :: events => simp

theorem length_fill (s : Script ε) : s.fill.2.unread.length ≤ s.unread.length := by
  obtain ⟨events⟩ := s
  match events with
  | [] => simp [fill]
  | .data head tail :: events => simp [fill]
  | .eof :: events => simp [fill]
  | .error e :: events => simp [fill]

theorem length_consume {s s' : Script ε} {chunk : List UInt8} {n : Nat}
    (h : s.fill = (.ok chunk, s')) (hn : n ≤ chunk.length) :
    n + (s'.consume n).unread.length ≤ s'.unread.length := by
  obtain ⟨events⟩ := s
  match events with
  | .data head tail :: events =>
    simp only [fill, Prod.mk.injEq, Except.ok.injEq] at h
    obtain ⟨rfl, rfl⟩ := h
    simp only [consume, Event.items, unread_push, unread_cons, List.length_append,
      Unread.length_ofBytes, List.length_drop]
    omega
  | [] =>
    simp only [fill, Prod.mk.injEq, Except.ok.injEq] at h
    obtain ⟨rfl, rfl⟩ := h
    simp only [List.length_nil, Nat.le_zero_eq] at hn
    simp [consume, hn]
  | .error e :: events => simp [fill] at h
  | .eof :: events =>
    simp only [fill, Prod.mk.injEq, Except.ok.injEq] at h
    obtain ⟨rfl, rfl⟩ := h
    simp only [List.length_nil, Nat.le_zero_eq] at hn
    subst hn
    match events with
    | .data head tail :: events => simp [consume, Event.items]
    | [] | .eof :: _ | .error _ :: _ => simp [consume]

instance : BufferedReader (Script ε) ε where
  unread := unread
  read := read
  fill := fill
  consume := consume
  length_read := length_read
  length_fill := length_fill
  length_consume := length_consume

end Script
end StrictUtf8
