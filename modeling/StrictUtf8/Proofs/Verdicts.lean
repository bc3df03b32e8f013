import StrictUtf8.Proofs.Check
import StrictUtf8.Proofs.Prefixes

/-! The check of a stream by its bytes: a well-formed text in front changes nothing, and where no
sequence starts the check stops. -/

namespace StrictUtf8
open Sequence
variable {ε : Type}

theorem check_lead {lead : UInt8} (hlead : isAscii lead = false) (u : Unread ε) :
    check (.byte lead :: u : Unread ε) =
      if width lead = 1 then (.ok false, u)
      else conclude lead (u.gather (width lead - 1)) := by
  have hskip : Feed.skipAscii (.byte lead :: u : Unread ε) = (.ok (some lead), u) :=
    Unread.skipAscii_lead hlead u
  have hcollect : collect (width lead - 1) u = u.gather (width lead - 1) := view_collect _ u
  rw [check_eq, hskip]
  simp only [hcollect]

theorem check_ascii {byte : UInt8} (h : isAscii byte = true) (u : Unread ε) :
    check (.byte byte :: u : Unread ε) = check u := by
  have hskip : Feed.skipAscii (.byte byte :: u : Unread ε) = Feed.skipAscii u := by
    change Unread.skipAscii _ = _
    rw [Unread.skipAscii, if_pos h]
    rfl
  rw [check_eq, hskip, ← check_eq]

theorem check_of_bytes_nil {u : Unread ε} (hu : u.bytes = []) :
    check u = (u.atMark true, u.drop 1) := by
  have hskip : Feed.skipAscii u = ((u.atMark []).map fun _ : List UInt8 => none, u.drop 1) :=
    Unread.skipAscii_of_mark hu rfl rfl
  rw [check_eq, hskip]
  rcases u.atMark_cases with hok | ⟨e, herror⟩
  · rw [hok, hok]
    rfl
  · rw [herror, herror]
    rfl

theorem check_sequence {s : List UInt8} (hs : CharSequence s) (u : Unread ε) :
    check (.ofBytes s ++ u : Unread ε) = check u := by
  match s with
  | [] => exact (hs.ne_nil rfl).elim
  | lead :: trailing =>
    rw [Unread.ofBytes_cons, List.cons_append]
    rcases (CharSequence.cons_iff lead trailing).mp hs with ⟨hascii, rfl⟩ | ⟨hascii, hlen, hcompletes⟩
    · exact check_ascii hascii u
    · have hwidth : width lead ≠ 1 := by
        intro hone
        obtain rfl : trailing = [] := List.length_eq_zero_iff.mp (by omega)
        simp [completes] at hcompletes
      rw [check_lead hascii, if_neg hwidth, ← hlen, Nat.add_sub_cancel,
        Unread.gather_run (Nat.le_refl _), List.take_length, List.drop_length]
      exact if_pos hcompletes

theorem check_append {good : List UInt8} (hgood : WellFormed good) (u : Unread ε) :
    check (.ofBytes good ++ u : Unread ε) = check u := by
  induction hgood with
  | nil => rfl
  | append hs _ ih => rw [Unread.ofBytes_append, List.append_assoc, check_sequence hs, ih]

theorem check_stuck {lead : UInt8} {more : List UInt8} (h : Stuck (lead :: more)) {u : Unread ε}
    (hu : u.bytes = []) :
    check (.ofBytes (lead :: more) ++ u : Unread ε) =
      if width lead ≤ (lead :: more).length then
        (.ok false, .ofBytes ((lead :: more).drop (width lead)) ++ u)
      else (u.atMark false, u.drop 1) := by
  rw [Unread.ofBytes_cons, List.cons_append, check_lead h.not_isAscii]
  by_cases hone : width lead = 1
  · rw [if_pos hone, hone]
    exact (if_pos (Nat.le_add_left 1 more.length)).symm
  rw [if_neg hone]
  have hpos := width_pos lead
  by_cases hle : width lead ≤ (lead :: more).length
  · have hle' : width lead - 1 ≤ more.length := by
      rw [List.length_cons] at hle
      omega
    have hdrop : (lead :: more).drop (width lead) = more.drop (width lead - 1) := by
      rw [← Nat.sub_add_cancel hpos, List.drop_succ_cons, Nat.add_sub_cancel]
    rw [if_pos hle, hdrop, Unread.gather_run hle']
    exact if_neg (by rw [h.not_completes hle]; exact Bool.false_ne_true)
  · have hlt : more.length < width lead - 1 := by
      rw [List.length_cons] at hle
      omega
    rw [if_neg hle, Unread.gather_short hlt hu]
    rcases u.atMark_cases with hok | ⟨e, herror⟩
    · rw [hok, hok]
      rfl
    · rw [herror, herror]
      rfl

theorem check_text {bytes : List UInt8} (h : WellFormed bytes) :
    check (.ofBytes bytes : Unread ε) = (.ok true, []) := by
  have hcheck := check_append h ([] : Unread ε)
  rw [List.append_nil] at hcheck
  exact hcheck.trans (check_of_bytes_nil rfl)

theorem check_text_stuck {good more : List UInt8} {lead : UInt8} (hgood : WellFormed good)
    (htail : Stuck (lead :: more)) :
    check (.ofBytes (good ++ lead :: more) : Unread ε) =
      (.ok false, .ofBytes ((lead :: more).drop (width lead))) := by
  have hcheck := check_stuck htail (u := ([] : Unread ε)) rfl
  rw [List.append_nil] at hcheck
  rw [Unread.ofBytes_append, check_append hgood, hcheck]
  split
  next => rw [List.append_nil]
  next hlt =>
    rw [List.drop_eq_nil_of_le (Nat.le_of_not_le hlt)]
    rfl

theorem check_stream (u : Unread ε) :
    ∃ p, LongestPrefix u.bytes p ∧
      check u = match u.bytes[p]? with
        | none => (u.marks.atMark true, u.drop (u.bytes.length + 1))
        | some lead =>
          if p + width lead ≤ u.bytes.length then (.ok false, u.drop (p + width lead))
          else (u.marks.atMark false, u.drop (u.bytes.length + 1)) := by
  -- In front stands a text, then a tail at which no sequence starts, then the first mark.
  obtain ⟨good, tail, hbytes, hgood, htail⟩ := exists_split u.bytes
  have hu : u = .ofBytes good ++ (.ofBytes tail ++ u.marks) := by
    rw [← List.append_assoc, ← Unread.ofBytes_append, ← hbytes, Unread.ofBytes_bytes_append_marks]
  have hcheck : check u = check (.ofBytes tail ++ u.marks : Unread ε) :=
    (congrArg check hu).trans (check_append hgood _)
  have hmark : u.drop (u.bytes.length + 1) = u.marks.drop 1 := by
    rw [← List.drop_drop, Unread.drop_length_bytes]
  have hlen : u.bytes.length = good.length + tail.length := by
    rw [hbytes, List.length_append]
  refine ⟨good.length, hbytes ▸ longestPrefix_of_split hgood htail, ?_⟩
  rw [hcheck, hmark]
  match tail with
  | [] =>
    have hnone : u.bytes[good.length]? = none := List.getElem?_eq_none (Nat.le_of_eq hlen)
    rw [hnone]
    exact check_of_bytes_nil (Unread.bytes_marks u)
  | lead :: more =>
    have hsome : u.bytes[good.length]? = some lead := by
      rw [hbytes, List.getElem?_append_right (Nat.le_refl _), Nat.sub_self]
      rfl
    rw [hsome, check_stuck htail (Unread.bytes_marks u)]
    by_cases hle : width lead ≤ (lead :: more).length
    · have hle' : good.length + width lead ≤ u.bytes.length := by omega
      have hdrop : u.drop (good.length + width lead) =
          Unread.ofBytes ((lead :: more).drop (width lead)) ++ u.marks := by
        rw [← Unread.drop_ofBytes_append hle]
        exact (congrArg (List.drop _) hu).trans (Unread.drop_past_ofBytes good _ _)
      simp only [if_pos hle, if_pos hle', hdrop]
    · have hlt : ¬ good.length + width lead ≤ u.bytes.length := by omega
      simp only [if_neg hle, if_neg hlt]

end StrictUtf8
