import StrictUtf8.Proofs.Encodings
import StrictUtf8.Proofs.Verdicts
import StrictUtf8.Text

/-! The check of bytes in memory. It starts at the first non-ASCII byte, yet it answers and consumes what
a check of the whole stream does, and it accepts exactly what the encoder puts out. -/

namespace StrictUtf8
open Sequence
variable {ε : Type}

theorem check_ascii_run {xs : List UInt8} (hxs : ∀ b ∈ xs, isAscii b = true) (u : Unread ε) :
    check (.ofBytes xs ++ u : Unread ε) = check u := by
  induction xs with
  | nil => rfl
  | cons b xs ih =>
    rw [List.forall_mem_cons] at hxs
    rw [Unread.ofBytes_cons, List.cons_append, check_ascii hxs.1, ih hxs.2]

theorem check_dropWhile_ascii (bytes : List UInt8) :
    check (.ofBytes (bytes.dropWhile isAscii) : Unread ε) = check (.ofBytes bytes : Unread ε) := by
  have hrun := check_ascii_run (ascii_takeWhile bytes) (.ofBytes (bytes.dropWhile isAscii) : Unread ε)
  rw [← Unread.ofBytes_append, List.takeWhile_append_dropWhile] at hrun
  exact hrun.symm

theorem checkText_eq (bytes : List UInt8) :
    let outcome := check (.ofBytes bytes : Unread Empty)
    checkText bytes =
      ⟨certain outcome.1,
        if certain outcome.1 then [] else [.illFormed (bytes.length - outcome.2.length)]⟩ := by
  rw [← check_dropWhile_ascii bytes, checkText]
  split
  next h =>
    rw [h, check_of_bytes_nil rfl]
    rfl
  next h =>
    have hview := view_check (InMemory.mk (bytes.dropWhile isAscii))
    change view _ = check (.ofBytes (bytes.dropWhile isAscii)) at hview
    rw [← hview, checkTail]
    rcases check (InMemory.mk (bytes.dropWhile isAscii)) with ⟨answer, left⟩
    dsimp only [view, Reader.unread]
    rw [Unread.length_ofBytes]
    split <;> rename_i hanswer <;> simp only [hanswer] <;> rfl

theorem certain_check_eq_true_iff (bytes : List UInt8) :
    certain (check (.ofBytes bytes : Unread Empty)).1 = true ↔ WellFormed bytes := by
  rcases text_or_stuck bytes with htext | ⟨good, lead, more, rfl, hgood, htail⟩
  · rw [check_text htext]
    exact iff_of_true rfl htext
  · rw [check_text_stuck hgood htail, wellFormed_append_iff hgood htail]
    exact iff_of_false Bool.false_ne_true (List.cons_ne_nil lead more)

theorem checkText_value_iff (bytes : List UInt8) :
    (checkText bytes).value = true ↔ WellFormed bytes := by
  rw [checkText_eq]
  exact certain_check_eq_true_iff bytes

theorem checkText_accepts_iff (bytes : List UInt8) :
    (checkText bytes).value = true ↔ ∃ text : List Char, utf8 text = bytes := by
  rw [checkText_value_iff, wellFormed_iff_exists_utf8]

end StrictUtf8
