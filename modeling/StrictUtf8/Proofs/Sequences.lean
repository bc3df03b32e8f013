import StrictUtf8.Sequence.Basic
import StrictUtf8.Sequence.Grammar

/-! The test for a complete sequence against the table of well-formed sequences: the width of a lead
and the test of the bytes after it accept exactly the rows of the table. -/

namespace StrictUtf8
namespace Sequence

theorem forall_uint8 {P : UInt8 → Prop} (h : ∀ n < 256, P (.ofNat n)) (byte : UInt8) : P byte := by
  have hbyte := h byte.toNat byte.toNat_lt
  rwa [UInt8.ofNat_toNat] at hbyte

theorem isTrailing_iff (byte : UInt8) : isTrailing byte = true ↔ Tail byte := by
  revert byte
  apply forall_uint8
  decide +kernel

theorem width_eq_one_iff (lead : UInt8) : width lead = 1 ↔ lead < 0xC2 ∨ 0xF4 < lead := by
  unfold width
  grind

theorem width_eq_two_iff (lead : UInt8) : width lead = 2 ↔ Between 0xC2 0xDF lead := by
  unfold width Between
  grind

theorem width_eq_three_iff (lead : UInt8) : width lead = 3 ↔ Between 0xE0 0xEF lead := by
  unfold width Between
  grind

theorem width_eq_four_iff (lead : UInt8) : width lead = 4 ↔ Between 0xF0 0xF4 lead := by
  unfold width Between
  grind

theorem plane_iff {lead : UInt8} (hlead : Between 0xF0 0xF4 lead) (second : UInt8) :
    Tail second → ((1 ≤ plane lead second ∧ plane lead second ≤ 16) ↔
      (lead = 0xF0 → 0x90 ≤ second) ∧ (lead = 0xF4 → second ≤ 0x8F)) := by
  have hcases : lead = 0xF0 ∨ lead = 0xF1 ∨ lead = 0xF2 ∨ lead = 0xF3 ∨ lead = 0xF4 := by
    unfold Between at hlead
    grind
  revert second
  apply forall_uint8
  rcases hcases with rfl | rfl | rfl | rfl | rfl <;> decide +kernel

theorem completes_two_iff (lead b : UInt8) : completes lead [b] = true ↔ Tail b := isTrailing_iff b

theorem completes_three_iff (lead b c : UInt8) : completes lead [b, c] = true ↔
    Tail b ∧ (lead = 0xE0 → 0xA0 ≤ b) ∧ (lead = 0xED → b ≤ 0x9F) ∧ Tail c := by
  simp only [completes, Bool.and_eq_true, isTrailing_iff]
  grind

theorem completes_four_iff {lead : UInt8} (hlead : Between 0xF0 0xF4 lead) (b c d : UInt8) :
    completes lead [b, c, d] = true ↔
      Tail b ∧ (lead = 0xF0 → 0x90 ≤ b) ∧ (lead = 0xF4 → b ≤ 0x8F) ∧ Tail c ∧ Tail d := by
  simp only [completes, Bool.and_eq_true, isTrailing_iff, decide_eq_true_eq]
  have hplane := plane_iff hlead b
  grind

theorem isAscii_iff (byte : UInt8) : isAscii byte = true ↔ byte ≤ 0x7F := by
  unfold isAscii
  grind

theorem not_isAscii_of_width {lead : UInt8} (h : width lead ≠ 1) : isAscii lead = false := by
  rw [ne_eq, width_eq_one_iff] at h
  unfold isAscii
  grind

theorem width_of_isAscii {byte : UInt8} (h : isAscii byte = true) : width byte = 1 := by
  rw [width_eq_one_iff]
  rw [isAscii_iff] at h
  grind

theorem width_pos (lead : UInt8) : 0 < width lead := by
  unfold width
  grind

theorem width_le_four (lead : UInt8) : width lead ≤ 4 := by
  unfold width
  grind

end Sequence
open Sequence

theorem selects_width {lead : UInt8} (h : isAscii lead = false) : Selects lead (width lead) := by
  have hrow : Between 0x80 0xC1 lead ∨ Between 0xC2 0xDF lead ∨ Between 0xE0 0xEF lead ∨
      Between 0xF0 0xF4 lead ∨ Between 0xF5 0xFF lead := by
    unfold isAscii at h
    unfold Between
    grind
  rcases hrow with hrow | hrow | hrow | hrow | hrow
  · have hlt : lead < 0xC2 := UInt8.lt_of_le_of_lt hrow.2 (by decide)
    rw [(width_eq_one_iff lead).mpr (.inl hlt)]
    exact .trailing hrow
  · rw [(width_eq_two_iff lead).mpr hrow]
    exact .two hrow
  · rw [(width_eq_three_iff lead).mpr hrow]
    exact .three hrow
  · rw [(width_eq_four_iff lead).mpr hrow]
    exact .four hrow
  · have hlt : 0xF4 < lead := UInt8.lt_of_lt_of_le (by decide) hrow.1
    rw [(width_eq_one_iff lead).mpr (.inr hlt)]
    exact .above hrow

theorem Selects.eq_width {lead : UInt8} {n : Nat} (h : Selects lead n) : n = width lead := by
  cases h with
  | trailing h => exact ((width_eq_one_iff lead).mpr (.inl (UInt8.lt_of_le_of_lt h.2 (by decide)))).symm
  | two h => exact ((width_eq_two_iff lead).mpr h).symm
  | three h => exact ((width_eq_three_iff lead).mpr h).symm
  | four h => exact ((width_eq_four_iff lead).mpr h).symm
  | above h => exact ((width_eq_one_iff lead).mpr (.inr (UInt8.lt_of_lt_of_le (by decide) h.1))).symm

namespace CharSequence

theorem one_iff (a : UInt8) : CharSequence [a] ↔ a ≤ 0x7F := by
  constructor
  · rintro ⟨⟩
    assumption
  · exact .ascii

theorem of_isAscii {byte : UInt8} (h : isAscii byte = true) : CharSequence [byte] :=
  .ascii ((isAscii_iff byte).mp h)

theorem two_iff (a b : UInt8) : CharSequence [a, b] ↔ Between 0xC2 0xDF a ∧ Tail b := by
  constructor
  · rintro ⟨⟩
    exact ⟨‹_›, ‹_›⟩
  · rintro ⟨ha, hb⟩
    exact .two ha hb

theorem three_iff (a b c : UInt8) : CharSequence [a, b, c] ↔
    Between 0xE0 0xEF a ∧ Tail b ∧ (a = 0xE0 → 0xA0 ≤ b) ∧ (a = 0xED → b ≤ 0x9F) ∧ Tail c := by
  constructor
  · intro h
    cases h <;> simp only [Tail, Between] at * <;> grind
  · rintro ⟨ha, hb, hlow, hhigh, hc⟩
    have hrow : a = 0xE0 ∨ Between 0xE1 0xEC a ∨ a = 0xED ∨ Between 0xEE 0xEF a := by
      unfold Between at *
      grind
    rcases hrow with rfl | ha | rfl | ha
    · exact .e0 ⟨hlow rfl, hb.2⟩ hc
    · exact .e1 ha hb hc
    · exact .ed ⟨hb.1, hhigh rfl⟩ hc
    · exact .ee ha hb hc

theorem four_iff (a b c d : UInt8) : CharSequence [a, b, c, d] ↔
    Between 0xF0 0xF4 a ∧ Tail b ∧ (a = 0xF0 → 0x90 ≤ b) ∧ (a = 0xF4 → b ≤ 0x8F) ∧ Tail c ∧ Tail d := by
  constructor
  · intro h
    cases h <;> simp only [Tail, Between] at * <;> grind
  · rintro ⟨ha, hb, hlow, hhigh, hc, hd⟩
    have hrow : a = 0xF0 ∨ Between 0xF1 0xF3 a ∨ a = 0xF4 := by
      unfold Between at *
      grind
    rcases hrow with rfl | ha | rfl
    · exact .f0 ⟨hlow rfl, hb.2⟩ hc hd
    · exact .f1 ha hb hc hd
    · exact .f4 ⟨hb.1, hhigh rfl⟩ hc hd

theorem cons_iff (lead : UInt8) (trailing : List UInt8) :
    CharSequence (lead :: trailing) ↔
      (isAscii lead = true ∧ trailing = []) ∨
        (isAscii lead = false ∧ trailing.length + 1 = width lead ∧ completes lead trailing = true) := by
  match trailing with
  | [] => simp [one_iff, isAscii_iff, completes]
  | [b] =>
    have hwidth := width_eq_two_iff lead
    rw [two_iff, completes_two_iff, List.length_singleton]
    unfold isAscii Between at *
    grind
  | [b, c] =>
    have hwidth := width_eq_three_iff lead
    rw [three_iff, completes_three_iff]
    unfold isAscii Between at *
    grind
  | [b, c, d] =>
    rw [four_iff]
    constructor
    · rintro ⟨ha, hrest⟩
      have hwidth := (width_eq_four_iff lead).mpr ha
      have hascii : isAscii lead = false := not_isAscii_of_width (by rw [hwidth]; decide)
      exact .inr ⟨hascii, hwidth.symm, (completes_four_iff ha b c d).mpr hrest⟩
    · rintro (⟨-, hnil⟩ | ⟨-, hwidth, hcompletes⟩)
      · exact absurd hnil (List.cons_ne_nil b [c, d])
      · have ha := (width_eq_four_iff lead).mp hwidth.symm
        exact ⟨ha, (completes_four_iff ha b c d).mp hcompletes⟩
  | _ :: _ :: _ :: _ :: _ =>
    constructor
    · rintro ⟨⟩
    · simp [completes]

end CharSequence
end StrictUtf8
