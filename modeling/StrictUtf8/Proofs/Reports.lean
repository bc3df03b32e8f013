import StrictUtf8.Proofs.Boundaries

/-! What the check of bytes in memory reports, and how the reports on two runs of bytes make up the report
on both together. A text in front shifts a report; a check that has stopped never sees what follows. -/

namespace StrictUtf8
open Sequence

theorem checkText_text {bytes : List UInt8} (h : WellFormed bytes) : checkText bytes = ⟨true, []⟩ := by
  rw [checkText_eq, check_text h]
  rfl

theorem length_sub_drop (good tail : List UInt8) (n : Nat) :
    (good ++ tail).length - (tail.drop n).length = good.length + min tail.length n := by
  rw [List.length_append, List.length_drop]
  omega

theorem checkText_stuck {good more : List UInt8} {lead : UInt8} (hgood : WellFormed good)
    (htail : Stuck (lead :: more)) :
    checkText (good ++ lead :: more) =
      ⟨false, [.illFormed (good.length + min (lead :: more).length (width lead))]⟩ := by
  rw [checkText_eq, ← length_sub_drop]
  simp only [check_text_stuck hgood htail, Unread.length_ofBytes]
  rfl

theorem check_memory {bytes left : List UInt8} {answer : Except Empty Bool}
    (h : check (.ofBytes bytes : Unread Empty) = (answer, .ofBytes left)) :
    check (InMemory.mk bytes) = (answer, ⟨left⟩) :=
  check_of_stream (fun _ _ hsame => congrArg InMemory.mk (Unread.ofBytes_inj.mp hsame)) h

theorem checkText_reports (bytes : List UInt8) :
    if (checkText bytes).value then
      (checkText bytes).events = [] ∧ check (InMemory.mk bytes) = (.ok true, ⟨[]⟩)
    else ∃ p lead w consumed, LongestPrefix bytes p ∧ bytes[p]? = some lead ∧ Selects lead w ∧
      consumed = min bytes.length (p + w) ∧
      (checkText bytes).events = [.illFormed consumed] ∧
      check (InMemory.mk bytes) = (.ok false, ⟨bytes.drop consumed⟩) ∧
      p < consumed ∧ consumed ≤ p + 4 := by
  rcases text_or_stuck bytes with htext | ⟨good, lead, more, rfl, hgood, htail⟩
  · rw [checkText_text htext]
    exact ⟨rfl, check_memory (check_text htext)⟩
  · rw [checkText_stuck hgood htail]
    refine ⟨good.length, lead, width lead, good.length + min (lead :: more).length (width lead),
      longestPrefix_of_split hgood htail, ?_, selects_width htail.not_isAscii, ?_, rfl, ?_, ?_, ?_⟩
    · rw [List.getElem?_append_right (Nat.le_refl _), Nat.sub_self]
      rfl
    · rw [List.length_append, Nat.add_min_add_left]
    · rw [List.drop_length_add_append, Nat.min_comm, ← List.drop_eq_drop_min]
      exact check_memory (check_text_stuck hgood htail)
    · have hpos := width_pos lead
      rw [List.length_cons]
      omega
    · have hle := width_le_four lead
      omega

theorem checkText_behind_text {a : List UInt8} (ha : WellFormed a) (b : List UInt8) :
    (checkText b = ⟨true, []⟩ ∧ checkText (a ++ b) = ⟨true, []⟩) ∨
      ∃ n, checkText b = ⟨false, [.illFormed n]⟩ ∧
        checkText (a ++ b) = ⟨false, [.illFormed (a.length + n)]⟩ := by
  rcases text_or_stuck b with hb | ⟨good, lead, more, rfl, hgood, htail⟩
  · exact .inl ⟨checkText_text hb, checkText_text (ha.concat hb)⟩
  · refine .inr ⟨_, checkText_stuck hgood htail, ?_⟩
    rw [← List.append_assoc, checkText_stuck (ha.concat hgood) htail, List.length_append, Nat.add_assoc]

theorem checkText_stopped {a : List UInt8} {n : Nat} (ha : checkText a = ⟨false, [.illFormed n]⟩)
    (hn : n < a.length) (b : List UInt8) : checkText (a ++ b) = ⟨false, [.illFormed n]⟩ := by
  rcases text_or_stuck a with htext | ⟨good, lead, more, rfl, hgood, htail⟩
  · rw [checkText_text htext] at ha
    cases ha
  · rw [checkText_stuck hgood htail] at ha
    obtain rfl := TraceEvent.illFormed.inj (List.head_eq_of_cons_eq (Traced.mk.inj ha).2)
    rw [List.length_append] at hn
    have hwidth : width lead ≤ (lead :: more).length := by omega
    have hwidth' : width lead ≤ (lead :: (more ++ b)).length := by
      rw [List.length_cons] at hwidth
      rw [List.length_cons, List.length_append]
      omega
    have hstuck := htail.append hwidth b
    rw [List.append_assoc, List.cons_append, checkText_stuck hgood hstuck, Nat.min_eq_right hwidth,
      Nat.min_eq_right hwidth']

theorem checkText_append (a b : List UInt8) :
    ((checkText a).value = true →
      (checkText (a ++ b)).value = (checkText b).value ∧
        ((checkText b).value = false →
          ∃ n, (checkText b).events = [.illFormed n] ∧
            (checkText (a ++ b)).events = [.illFormed (a.length + n)])) ∧
    ((checkText (a ++ b)).value = true → (checkText b).value = true → (checkText a).value = true) ∧
    (∀ n < a.length, checkText a = ⟨false, [.illFormed n]⟩ →
      checkText (a ++ b) = ⟨false, [.illFormed n]⟩) := by
  refine ⟨?_, ?_, ?_⟩
  · intro ha
    rw [checkText_value_iff] at ha
    rcases checkText_behind_text ha b with ⟨hb, hab⟩ | ⟨n, hb, hab⟩
    · rw [hb, hab]
      exact ⟨rfl, fun hfalse => by cases hfalse⟩
    · rw [hb, hab]
      exact ⟨rfl, fun _ => ⟨n, rfl, rfl⟩⟩
  · intro hab hb
    rw [checkText_value_iff] at hab hb ⊢
    exact hab.of_append_right hb
  · intro n hn ha
    exact checkText_stopped ha hn b

/-- A byte that starts nothing, behind `é`; and an overlong form that is rejected at its first byte, though
what follows would complete the last one. -/
theorem checkText_append_overlong :
    (checkText [0xC3, 0xA9]).value = true ∧ (checkText [0x61, 0xFF, 0x61]).value = false ∧
      (∃ n, (checkText [0x61, 0xFF, 0x61]).events = [.illFormed n] ∧
        (checkText ([0xC3, 0xA9] ++ [0x61, 0xFF, 0x61])).events = [.illFormed (2 + n)]) ∧
      checkText [0xC0, 0x80, 0xC3] = ⟨false, [.illFormed 1]⟩ ∧
      checkText ([0xC0, 0x80, 0xC3] ++ [0xA9]) = ⟨false, [.illFormed 1]⟩ := by
  have htext : (checkText [0xC3, 0xA9]).value = true :=
    (checkText_value_iff _).mpr (.of_sequence (.two (by decide) (by decide)))
  have hrejected : (checkText [0x61, 0xFF, 0x61]).value = false := by cbv
  have hoverlong : checkText [0xC0, 0x80, 0xC3] = ⟨false, [.illFormed 1]⟩ := by cbv
  exact ⟨htext, hrejected, ((checkText_append _ _).1 htext).2 hrejected, hoverlong,
    (checkText_append _ _).2.2 1 (by decide) hoverlong⟩

end StrictUtf8
