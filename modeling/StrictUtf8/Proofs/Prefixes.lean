import StrictUtf8.Proofs.Sequences

/-! Bytes cut at their first ill-formed place: a well-formed text, then a tail at which no sequence
starts. The text is the longest well-formed prefix. -/

namespace StrictUtf8
open Sequence

/-- No well-formed sequence stands in front. -/
def Stuck (bytes : List UInt8) : Prop := ∀ s rest, CharSequence s → bytes ≠ s ++ rest

namespace CharSequence

theorem ne_nil {s : List UInt8} (h : CharSequence s) : s ≠ [] := by
  rintro rfl
  cases h

theorem length_eq_width {lead : UInt8} {trailing : List UInt8} (h : CharSequence (lead :: trailing)) :
    trailing.length + 1 = width lead := by
  rcases (cons_iff lead trailing).mp h with ⟨hascii, rfl⟩ | ⟨-, hwidth, -⟩
  · exact (width_of_isAscii hascii).symm
  · exact hwidth

theorem append_inj {s t xs ys : List UInt8} (hs : CharSequence s) (ht : CharSequence t)
    (h : s ++ xs = t ++ ys) : s = t ∧ xs = ys := by
  match s, t with
  | [], _ => exact (hs.ne_nil rfl).elim
  | _, [] => exact (ht.ne_nil rfl).elim
  | a :: s, b :: t =>
    obtain ⟨rfl, -⟩ := List.cons.inj h
    have hlen : s.length + 1 = t.length + 1 := hs.length_eq_width.trans ht.length_eq_width.symm
    exact List.append_inj h hlen

end CharSequence

namespace WellFormed

theorem length_le_of_stuck {good tail q r : List UInt8} (hgood : WellFormed good) (htail : Stuck tail)
    (hq : WellFormed q) (h : q ++ r = good ++ tail) : q.length ≤ good.length := by
  -- Both texts begin with the same sequence, so they can be compared one sequence at a time.
  induction hgood generalizing q with
  | nil =>
    cases hq with
    | nil => exact Nat.le_refl _
    | append hs _ =>
      rw [List.append_assoc, List.nil_append] at h
      exact (htail _ _ hs h.symm).elim
  | append hs _ ih =>
    cases hq with
    | nil => exact Nat.zero_le _
    | append ht hq =>
      rw [List.append_assoc, List.append_assoc] at h
      obtain ⟨rfl, hrest⟩ := ht.append_inj hs h
      rw [List.length_append, List.length_append]
      exact Nat.add_le_add_left (ih hq hrest) _

theorem concat {xs ys : List UInt8} (hxs : WellFormed xs) (hys : WellFormed ys) :
    WellFormed (xs ++ ys) := by
  induction hxs with
  | nil => exact hys
  | append hs _ ih =>
    rw [List.append_assoc]
    exact .append hs ih

theorem of_sequence {s : List UInt8} (h : CharSequence s) : WellFormed s := by
  simpa only [List.append_nil] using WellFormed.append h .nil

end WellFormed

/-- What counts are the bytes that the first one asks for. -/
theorem stuck_cons_iff (lead : UInt8) (more : List UInt8) :
    Stuck (lead :: more) ↔ ¬ CharSequence ((lead :: more).take (width lead)) := by
  constructor
  · intro h hs
    exact h _ ((lead :: more).drop (width lead)) hs (List.take_append_drop _ _).symm
  · intro h s rest hs heq
    match s with
    | [] => exact hs.ne_nil rfl
    | first :: trailing =>
      obtain ⟨rfl, -⟩ := List.cons.inj heq
      have hlen : (lead :: trailing).length = width lead := hs.length_eq_width
      rw [heq, ← hlen, List.take_left] at h
      exact h hs

theorem stuck_of_length_le {lead : UInt8} {more : List UInt8} (hlen : (lead :: more).length ≤ width lead)
    (h : ¬ CharSequence (lead :: more)) : Stuck (lead :: more) := by
  rwa [stuck_cons_iff, List.take_of_length_le hlen]

theorem stuck_of_length_lt {lead : UInt8} {more : List UInt8} (hlen : (lead :: more).length < width lead) :
    Stuck (lead :: more) :=
  stuck_of_length_le (Nat.le_of_lt hlen) fun hs => Nat.ne_of_lt hlen hs.length_eq_width

theorem Stuck.not_isAscii {lead : UInt8} {more : List UInt8} (h : Stuck (lead :: more)) :
    isAscii lead = false := by
  refine Bool.eq_false_iff.mpr fun hascii => ?_
  exact h [lead] more (.of_isAscii hascii) rfl

theorem Stuck.not_completes {lead : UInt8} {more : List UInt8} (h : Stuck (lead :: more))
    (hwidth : width lead ≤ more.length + 1) : completes lead (more.take (width lead - 1)) = false := by
  refine Bool.eq_false_iff.mpr fun hcompletes => ?_
  have hlen : (more.take (width lead - 1)).length + 1 = width lead := by
    have hpos := width_pos lead
    rw [List.length_take]
    omega
  have hs := (CharSequence.cons_iff lead _).mpr (.inr ⟨h.not_isAscii, hlen, hcompletes⟩)
  apply h _ (more.drop (width lead - 1)) hs
  rw [List.cons_append, List.take_append_drop]

theorem exists_split (bytes : List UInt8) :
    ∃ good tail, bytes = good ++ tail ∧ WellFormed good ∧ Stuck tail := by
  by_cases h : ∃ s rest, CharSequence s ∧ bytes = s ++ rest
  · obtain ⟨s, rest, hs, rfl⟩ := h
    have hshorter : rest.length < (s ++ rest).length := by
      have hpos := List.length_pos_iff.mpr hs.ne_nil
      rw [List.length_append]
      omega
    obtain ⟨good, tail, rfl, hgood, htail⟩ := exists_split rest
    exact ⟨s ++ good, tail, (List.append_assoc ..).symm, .append hs hgood, htail⟩
  · refine ⟨[], bytes, rfl, .nil, ?_⟩
    intro s rest hs hbytes
    exact h ⟨s, rest, hs, hbytes⟩
termination_by bytes.length

theorem longestPrefix_of_split {good tail : List UInt8} (hgood : WellFormed good) (htail : Stuck tail) :
    LongestPrefix (good ++ tail) good.length := by
  refine ⟨?_, ?_, ?_⟩
  · rw [List.length_append]
    exact Nat.le_add_right _ _
  · rwa [List.take_left]
  · intro m hm htake
    have hle := hgood.length_le_of_stuck htail htake (List.take_append_drop m _)
    rwa [List.length_take, Nat.min_eq_left hm] at hle

theorem LongestPrefix.unique {bytes : List UInt8} {m n : Nat} (hm : LongestPrefix bytes m)
    (hn : LongestPrefix bytes n) : m = n :=
  Nat.le_antisymm (hn.2.2 m hm.1 hm.2.1) (hm.2.2 n hn.1 hn.2.1)

theorem Stuck.append_inj {good good' tail tail' : List UInt8} (htail : Stuck tail) (htail' : Stuck tail')
    (hgood : WellFormed good) (hgood' : WellFormed good') (h : good ++ tail = good' ++ tail') :
    good = good' ∧ tail = tail' := by
  have hlongest := longestPrefix_of_split hgood htail
  rw [h] at hlongest
  exact List.append_inj h (hlongest.unique (longestPrefix_of_split hgood' htail'))

theorem LongestPrefix.selects {bytes : List UInt8} {p : Nat} {lead : UInt8} (hp : LongestPrefix bytes p)
    (hlead : bytes[p]? = some lead) : Selects lead (width lead) := by
  refine selects_width (Bool.eq_false_iff.mpr fun hascii => ?_)
  obtain ⟨hlt, -⟩ := List.getElem?_eq_some_iff.mp hlead
  have hlonger : WellFormed (bytes.take (p + 1)) := by
    rw [List.take_add_one, hlead]
    exact hp.2.1.concat (.of_sequence (.of_isAscii hascii))
  exact Nat.not_succ_le_self p (hp.2.2 (p + 1) hlt hlonger)

theorem wellFormed_append_iff {good tail : List UInt8} (hgood : WellFormed good) (htail : Stuck tail) :
    WellFormed (good ++ tail) ↔ tail = [] := by
  constructor
  · intro h
    have hle := hgood.length_le_of_stuck htail h (List.append_nil _)
    rw [List.length_append] at hle
    exact List.length_eq_zero_iff.mp (by omega)
  · rintro rfl
    rwa [List.append_nil]

theorem WellFormed.append_iff {xs ys : List UInt8} (hxs : WellFormed xs) :
    WellFormed (xs ++ ys) ↔ WellFormed ys := by
  obtain ⟨good, tail, rfl, hgood, htail⟩ := exists_split ys
  rw [← List.append_assoc, wellFormed_append_iff (hxs.concat hgood) htail,
    wellFormed_append_iff hgood htail]

theorem text_or_stuck (bytes : List UInt8) :
    WellFormed bytes ∨
      ∃ good lead more, bytes = good ++ lead :: more ∧ WellFormed good ∧ Stuck (lead :: more) := by
  obtain ⟨good, tail, rfl, hgood, htail⟩ := exists_split bytes
  match tail with
  | [] =>
    rw [List.append_nil]
    exact .inl hgood
  | lead :: more => exact .inr ⟨good, lead, more, rfl, hgood, htail⟩

theorem Stuck.append {lead : UInt8} {more : List UInt8} (h : Stuck (lead :: more))
    (hwidth : width lead ≤ (lead :: more).length) (rest : List UInt8) :
    Stuck (lead :: (more ++ rest)) := by
  rw [stuck_cons_iff] at h ⊢
  rwa [← List.cons_append, List.take_append_of_le_length hwidth]

end StrictUtf8
