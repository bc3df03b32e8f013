import StrictUtf8.Proofs.Reports

/-! The check of bytes in memory by positions: parts are taken by their bounds and bytes by their index,
and a bound or an index out of range fails. None ever is, and the check answers and reports the same. -/

namespace StrictUtf8
open Sequence
variable {α : Type}

structure OutOfRange where
  index : Nat
  size : Nat
deriving DecidableEq, Repr

/-- Bytes in memory as a feed that takes them by position and tests every position. -/
structure Indexed where
  rest : List UInt8
deriving DecidableEq, Repr

namespace Indexed

def get (xs : List α) (i : Nat) : Except OutOfRange α :=
  match xs[i]? with
  | some x => .ok x
  | none => .error ⟨i, xs.length⟩

def part (xs : List α) (start stop : Nat) : Except OutOfRange (List α) :=
  if stop < start then .error ⟨start, stop⟩
  else if xs.length < stop then .error ⟨stop, xs.length⟩
  else .ok ((xs.take stop).drop start)

def remaining (size count : Nat) : Except OutOfRange Nat :=
  if size < count then .error ⟨count, size⟩ else .ok (size - count)

def settle (s : Indexed) : Except OutOfRange (α × List UInt8) → Except OutOfRange α × Indexed
  | .ok (answer, rest) => (.ok answer, ⟨rest⟩)
  | .error e => (.error e, s)

def read (size : Nat) (s : Indexed) : Except OutOfRange (List UInt8) × Indexed :=
  settle s do
    let count := min size s.rest.length
    let bytes ← part s.rest 0 count
    let rest ← part s.rest count s.rest.length
    let _ ← remaining size bytes.length
    return (bytes, rest)

def skipAscii (s : Indexed) : Except OutOfRange (Option UInt8) × Indexed :=
  settle s do
    match s.rest.findIdx? (!isAscii ·) with
    | none => return (none, [])
    | some i =>
      let lead ← get s.rest i
      let rest ← part s.rest (i + 1) s.rest.length
      return (some lead, rest)

theorem part_front {xs : List α} {n : Nat} (h : n ≤ xs.length) : part xs 0 n = .ok (xs.take n) := by
  rw [part, if_neg (Nat.not_lt_zero n), if_neg (Nat.not_lt_of_le h), List.drop_zero]

theorem part_back {xs : List α} {n : Nat} (h : n ≤ xs.length) :
    part xs n xs.length = .ok (xs.drop n) := by
  rw [part, if_neg (Nat.not_lt_of_le h), if_neg (Nat.lt_irrefl _), List.take_length]

theorem remaining_of_le {size count : Nat} (h : count ≤ size) :
    remaining size count = .ok (size - count) := if_neg (Nat.not_lt_of_le h)

theorem read_eq (size : Nat) (s : Indexed) :
    s.read size = (.ok (s.rest.take size), ⟨s.rest.drop size⟩) := by
  have hcount : min size s.rest.length ≤ s.rest.length := Nat.min_le_right _ _
  have hplace : (s.rest.take (min size s.rest.length)).length ≤ size :=
    Nat.le_trans (List.length_take_le _ _) (Nat.min_le_left _ _)
  simp only [read, part_front hcount, part_back hcount, bind, Except.bind, remaining_of_le hplace]
  rw [← List.take_eq_take_min, ← List.drop_eq_drop_min]
  rfl

theorem findIdx?_isAscii (bytes : List UInt8) :
    match bytes.findIdx? (!isAscii ·) with
    | none => bytes.dropWhile isAscii = []
    | some i => i < bytes.length ∧ bytes.dropWhile isAscii = bytes.drop i := by
  have hdrop : bytes.dropWhile isAscii = bytes.drop (bytes.findIdx (!isAscii ·)) :=
    List.dropWhile_eq_drop_findIdx_not
  cases h : bytes.findIdx? (!isAscii ·) with
  | none =>
    rw [List.findIdx?_eq_none_iff_findIdx_eq] at h
    rw [hdrop, h, List.drop_length]
  | some i =>
    rw [List.findIdx?_eq_some_iff_findIdx_eq] at h
    rw [hdrop, h.2]
    exact ⟨h.1, rfl⟩

theorem skipAscii_eq (s : Indexed) :
    s.skipAscii = match s.rest.dropWhile isAscii with
      | [] => (.ok none, ⟨[]⟩)
      | lead :: rest => (.ok (some lead), ⟨rest⟩) := by
  have hfirst := findIdx?_isAscii s.rest
  rw [skipAscii]
  cases h : s.rest.findIdx? (!isAscii ·) with
  | none =>
    rw [h] at hfirst
    rw [hfirst]
    rfl
  | some i =>
    rw [h] at hfirst
    obtain ⟨hi, hdrop⟩ := hfirst
    rw [hdrop, List.drop_eq_getElem_cons hi]
    simp only [get, List.getElem?_eq_getElem hi, part_back hi]
    rfl

instance : Reader Indexed OutOfRange where
  unread s := .ofBytes s.rest
  read := read
  length_read size s := by
    simp only [read_eq, servedCount_ok, Unread.length_ofBytes, List.length_take, List.length_drop]
    omega

theorem view_skipAscii (s : Indexed) : view s.skipAscii = (Reader.unread s).skipAscii := by
  have hskip := Unread.skipAscii_run s.rest ([] : Unread OutOfRange)
  rw [List.append_nil] at hskip
  refine Eq.trans ?_ hskip.symm
  rw [skipAscii_eq]
  cases s.rest.dropWhile isAscii with
  | nil => rfl
  | cons lead rest => simp only [List.append_nil]; rfl

instance : Feed Indexed OutOfRange where
  skipAscii := skipAscii
  length_skipAscii {s s' lead} h := by
    have hview := view_skipAscii s
    rw [h] at hview
    exact Unread.length_skipAscii hview.symm

instance : LawfulFeed Indexed where
  serves size s := by
    change Serve size _ (s.read size).1 (Reader.unread (s.read size).2)
    rw [read_eq]
    exact Serve.take_all (Nat.le_refl size) id s.rest
  skips := view_skipAscii

theorem check_indexed {bytes left : List UInt8} {answer : Except OutOfRange Bool}
    (h : check (.ofBytes bytes : Unread OutOfRange) = (answer, .ofBytes left)) :
    check (Indexed.mk bytes) = (answer, ⟨left⟩) :=
  check_of_stream (fun _ _ hsame => congrArg Indexed.mk (Unread.ofBytes_inj.mp hsame)) h

def checkText (bytes : List UInt8) : Except OutOfRange (Traced Bool) :=
  match bytes.findIdx? (!isAscii ·) with
  | none => .ok (pure true)
  | some first => do
    let tail ← part bytes first bytes.length
    let (answer, left) := check (Indexed.mk tail)
    if ← answer then return pure true
    else
      let consumed ← remaining bytes.length left.rest.length
      return do
        .emit (.illFormed consumed)
        pure false

def checkWindow (bytes : List UInt8) (offset length : UInt64) :
    Except OutOfRange (Traced (Except WindowError Bool)) :=
  match Window.ofOffset offset length bytes.length with
  | .error e => .ok (pure (.error e))
  | .ok window => do
    let content ← part bytes window.start window.stop
    return .ok <$> (← checkText content)

theorem part_window (xs : List α) (w : Window xs.length) :
    part xs w.start w.stop = .ok (Window.slice xs w) := by
  rw [part, if_neg (Nat.not_lt_of_le w.start_le_stop), if_neg (Nat.not_lt_of_le w.stop_le_size),
    Window.slice]

theorem checkText_eq (bytes : List UInt8) : checkText bytes = .ok (StrictUtf8.checkText bytes) := by
  have hfirst := findIdx?_isAscii bytes
  rw [checkText]
  cases h : bytes.findIdx? (!isAscii ·) with
  | none =>
    rw [h] at hfirst
    rw [StrictUtf8.checkText, hfirst]
  | some first =>
    rw [h] at hfirst
    obtain ⟨hlt, hdrop⟩ := hfirst
    have htail : check (.ofBytes (bytes.drop first) : Unread OutOfRange) = check (.ofBytes bytes) := by
      rw [← hdrop, check_dropWhile_ascii]
    simp only [part_back (Nat.le_of_lt hlt)]
    rcases text_or_stuck bytes with htext | ⟨good, lead, more, rfl, hgood, hstuck⟩
    · rw [check_text htext] at htail
      have hcheck : check (Indexed.mk (bytes.drop first)) = (.ok true, ⟨[]⟩) := check_indexed htail
      simp only [bind, Except.bind, hcheck, checkText_text htext]
      rfl
    · rw [check_text_stuck hgood hstuck] at htail
      have hleft : ((lead :: more).drop (width lead)).length ≤ (good ++ lead :: more).length := by
        rw [List.length_drop, List.length_append]
        omega
      simp only [bind, Except.bind, check_indexed htail, remaining_of_le hleft,
        checkText_stuck hgood hstuck, length_sub_drop]
      rfl

theorem checkWindow_eq (bytes : List UInt8) (offset length : UInt64) :
    checkWindow bytes offset length = .ok (StrictUtf8.checkWindow bytes offset length) := by
  rw [checkWindow, StrictUtf8.checkWindow]
  cases Window.ofOffset offset length bytes.length with
  | error e => rfl
  | ok window =>
    simp only [part_window, bind, Except.bind, checkText_eq]
    rfl

end Indexed

end StrictUtf8
