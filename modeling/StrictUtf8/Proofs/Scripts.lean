import StrictUtf8.Proofs.Verdicts

/-! The check of a script byte by byte: its answer, and exactly where it leaves the script. -/

namespace StrictUtf8
open Sequence
variable {ε : Type}

namespace Script

def next (s : Script ε) : Script ε :=
  match s.events with
  | [] => s
  | .data _ tail :: events => push tail events
  | _ :: events => ⟨events⟩

/-- The script once its first `n` items are taken; the other bytes stay grouped as they were. -/
def advance : Nat → Script ε → Script ε
  | 0, s => s
  | n + 1, s => advance n s.next

theorem unread_next (s : Script ε) : s.next.unread = s.unread.drop 1 := by
  obtain ⟨events⟩ := s
  match events with
  | [] | .eof :: events | .error e :: events => rfl
  | .data head tail :: events => exact unread_push tail events

theorem unread_advance (n : Nat) (s : Script ε) : (s.advance n).unread = s.unread.drop n := by
  induction n generalizing s with
  | zero => rfl
  | succ n ih => rw [advance, ih, unread_next, List.drop_drop, Nat.add_comm]

theorem advance_add (m n : Nat) (s : Script ε) : s.advance (m + n) = (s.advance m).advance n := by
  induction m generalizing s with
  | zero => rw [Nat.zero_add, advance]
  | succ m ih => rw [Nat.succ_add, advance, advance, ih]

theorem advance_push {n : Nat} {bytes : List UInt8} (h : n ≤ bytes.length) (events : List (Event ε)) :
    (push bytes events).advance n = push (bytes.drop n) events := by
  induction n generalizing bytes with
  | zero => rfl
  | succ n ih =>
    match bytes with
    | [] => simp at h
    | head :: tail => exact ih (Nat.le_of_succ_le_succ h)

theorem eq_nil_of_unread_nil {s : Script ε} (h : s.unread = []) : s = ⟨[]⟩ := by
  obtain ⟨events⟩ := s
  match events with
  | [] => rfl
  | .data head tail :: events | .eof :: events | .error e :: events => cases h

theorem advance_congr {m n : Nat} {s : Script ε} (h : s.unread.drop m = s.unread.drop n) :
    s.advance m = s.advance n := by
  rcases Nat.lt_or_ge m s.unread.length with hm | hm
  · have hlen := congrArg List.length h
    rw [List.length_drop, List.length_drop] at hlen
    obtain rfl : m = n := by omega
    rfl
  · have hnil : s.unread.drop m = [] := List.drop_eq_nil_of_le hm
    rw [eq_nil_of_unread_nil ((unread_advance m s).trans hnil),
      eq_nil_of_unread_nil ((unread_advance n s).trans (h.symm.trans hnil))]

theorem read_eq_advance (n : Nat) (s : Script ε) : ∃ k, (s.read n).2 = s.advance k := by
  obtain ⟨events⟩ := s
  unfold read
  split
  next => exact ⟨0, rfl⟩
  next =>
    match events with
    | [] => exact ⟨0, rfl⟩
    | .data head tail :: events =>
      refine ⟨min n (head :: tail).length, ?_⟩
      have hpush := advance_push (Nat.min_le_right n (head :: tail).length) events
      rw [← List.drop_eq_drop_min] at hpush
      exact hpush.symm
    | .eof :: events | .error e :: events => exact ⟨1, rfl⟩

theorem read_of_reached {s r : Script ε} (h : ∃ k, r = s.advance k) (n : Nat) :
    ∃ k, (r.read n).2 = s.advance k := by
  obtain ⟨k, rfl⟩ := h
  obtain ⟨j, hj⟩ := read_eq_advance n (s.advance k)
  exact ⟨k + j, hj.trans (advance_add k j s).symm⟩

end Script

/-- Reads only ever move forward through a script, so the view of a check tells the script it leaves. -/
theorem check_script_of_view {s : Script ε} {answer : Except ε Bool} {n : Nat}
    (h : check s.unread = (answer, s.unread.drop n)) :
    check (Bytewise.mk s) = (answer, ⟨s.advance n⟩) := by
  have hread : ∀ m (r : Script ε), (∃ k, r = s.advance k) → ∃ k, (Reader.read m r).2 = s.advance k :=
    fun m _ hr => Script.read_of_reached hr m
  have hreach : ∃ k, (check (Bytewise.mk s)).2.reader = s.advance k :=
    check_preserves (P := fun t : Bytewise (Script ε) => ∃ k, t.reader = s.advance k)
      (fun t ht => Bytewise.skip_preserves hread ht) (fun m t _ ht => hread m t.reader ht) ⟨0, rfl⟩
  have hview : view (check (Bytewise.mk s)) = (answer, s.unread.drop n) :=
    (view_check (Bytewise.mk s)).trans h
  -- What the check leaves is some position in the script, and the stream left tells which.
  generalize check (Bytewise.mk s) = outcome at hreach hview ⊢
  obtain ⟨answer', ⟨left⟩⟩ := outcome
  obtain ⟨rfl, hleft⟩ := Prod.mk.inj hview
  obtain ⟨k, rfl⟩ := hreach
  have hdrop : s.unread.drop k = s.unread.drop n := (Script.unread_advance k s).symm.trans hleft
  rw [Script.advance_congr hdrop]

theorem check_script (s : Script ε) :
    ∃ p, LongestPrefix s.unread.bytes p ∧
      match s.unread.bytes[p]? with
      | none => check (Bytewise.mk s) =
          (s.unread.marks.atMark true, ⟨s.advance (s.unread.bytes.length + 1)⟩)
      | some lead => ∃ w, Selects lead w ∧ check (Bytewise.mk s) =
          if p + w ≤ s.unread.bytes.length then (.ok false, ⟨s.advance (p + w)⟩)
          else (s.unread.marks.atMark false, ⟨s.advance (s.unread.bytes.length + 1)⟩) := by
  obtain ⟨p, hp, hcheck⟩ := check_stream s.unread
  refine ⟨p, hp, ?_⟩
  cases hlead : s.unread.bytes[p]? with
  | none =>
    rw [hlead] at hcheck
    exact check_script_of_view hcheck
  | some lead =>
    rw [hlead] at hcheck
    refine ⟨width lead, hp.selects hlead, ?_⟩
    by_cases hle : p + width lead ≤ s.unread.bytes.length
    · simp only [if_pos hle] at hcheck ⊢
      exact check_script_of_view hcheck
    · simp only [if_neg hle] at hcheck ⊢
      exact check_script_of_view hcheck

end StrictUtf8
