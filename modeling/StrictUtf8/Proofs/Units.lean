import StrictUtf8.Proofs.Encodings
import StrictUtf8.Scalar.Decode

/-! Code units cut at their first unpaired surrogate: the units of a text, then a tail at which no scalar
value starts. -/

namespace StrictUtf8

/-- The units do not start with those of a scalar value. -/
def Lone (units : List UInt16) : Prop := ∀ c rest, units ≠ Scalar.units c ++ rest

namespace Scalar

def extra (c : Char) : Nat := if c.toNat ≤ 0x7F then 0 else if c.toNat ≤ 0x7FF then 1 else 2

theorem extra_le (c : Char) : extra c ≤ 2 := by
  unfold extra
  split
  · exact Nat.zero_le 2
  · split
    · exact Nat.le_succ 1
    · exact Nat.le_refl 2

theorem extra_of_ge {c : Char} (h : 0x800 ≤ c.toNat) : extra c = 2 := by
  rw [extra, if_neg (by omega), if_neg (by omega)]

theorem length_encode (c : Char) : (String.utf8EncodeChar c).length = (units c).length + extra c := by
  rw [encode_eq]
  unfold units extra
  grind

theorem units_of_lt {c : Char} (h : c.toNat < 0x10000) : units c = [c.toNat.toUInt16] := if_pos h

theorem units_of_ge {c : Char} (h : 0x10000 ≤ c.toNat) : units c =
    [(0xD800 + supplement c / 0x400).toUInt16, (0xDC00 + supplement c % 0x400).toUInt16] :=
  if_neg (Nat.not_lt_of_le h)

theorem isSurrogate_eq_false_iff (unit : UInt16) :
    isSurrogate unit = false ↔ unit.toNat < 0xD800 ∨ 0xDFFF < unit.toNat := by
  simp only [isSurrogate, Bool.and_eq_false_iff, decide_eq_false_iff_not, UInt16.le_iff_toNat_le,
    UInt16.reduceToNat, Nat.not_le]

theorem isHighSurrogate_iff (unit : UInt16) :
    isHighSurrogate unit = true ↔ 0xD800 ≤ unit.toNat ∧ unit.toNat ≤ 0xDBFF := by
  simp only [isHighSurrogate, Bool.and_eq_true, decide_eq_true_eq, UInt16.le_iff_toNat_le,
    UInt16.reduceToNat]

theorem isLowSurrogate_iff (unit : UInt16) :
    isLowSurrogate unit = true ↔ 0xDC00 ≤ unit.toNat ∧ unit.toNat ≤ 0xDFFF := by
  simp only [isLowSurrogate, Bool.and_eq_true, decide_eq_true_eq, UInt16.le_iff_toNat_le,
    UInt16.reduceToNat]

theorem toUInt16_toNat (unit : UInt16) : unit.toNat.toUInt16 = unit := UInt16.ofNat_toNat

theorem toNat_toUInt16 {n : Nat} (h : n < 0x10000) : n.toUInt16.toNat = n := UInt16.toNat_ofNat_of_lt' h

theorem exists_units_one {unit : UInt16} (h : isSurrogate unit = false) : ∃ c, units c = [unit] := by
  rw [isSurrogate_eq_false_iff] at h
  have hunit := unit.toNat_lt
  obtain ⟨c, hc⟩ := exists_toNat (v := unit.toNat) (by omega)
  refine ⟨c, ?_⟩
  rw [units_of_lt (by omega), hc, toUInt16_toNat]

theorem exists_units_pair {high low : UInt16} (hhigh : isHighSurrogate high = true)
    (hlow : isLowSurrogate low = true) : ∃ c, units c = [high, low] := by
  rw [isHighSurrogate_iff] at hhigh
  rw [isLowSurrogate_iff] at hlow
  obtain ⟨c, hc⟩ := exists_toNat
    (v := 0x10000 + (high.toNat - 0xD800) * 0x400 + (low.toNat - 0xDC00)) (by omega)
  have hfirst : 0xD800 + supplement c / 0x400 = high.toNat := by
    unfold supplement
    omega
  have hsecond : 0xDC00 + supplement c % 0x400 = low.toNat := by
    unfold supplement
    omega
  refine ⟨c, ?_⟩
  rw [units_of_ge (by omega), hfirst, hsecond, toUInt16_toNat, toUInt16_toNat]

theorem units_ne_nil (c : Char) : units c ≠ [] := by
  unfold units
  split <;> exact List.cons_ne_nil _ _

theorem supplement_lt (c : Char) : supplement c < 0x100000 := by
  have hvalid := toNat_valid c
  unfold supplement
  omega

theorem isHighSurrogate_supplement (c : Char) :
    isHighSurrogate (0xD800 + supplement c / 0x400).toUInt16 = true := by
  have hlt := supplement_lt c
  rw [isHighSurrogate_iff, toNat_toUInt16 (by omega)]
  omega

theorem isLowSurrogate_supplement (c : Char) :
    isLowSurrogate (0xDC00 + supplement c % 0x400).toUInt16 = true := by
  rw [isLowSurrogate_iff, toNat_toUInt16 (by omega)]
  omega

theorem not_surrogate_of_lt {c : Char} (h : c.toNat < 0x10000) :
    isSurrogate c.toNat.toUInt16 = false := by
  have hvalid := toNat_valid c
  rw [isSurrogate_eq_false_iff, toNat_toUInt16 h]
  omega

theorem units_cases (c : Char) :
    (∃ unit, units c = [unit] ∧ isSurrogate unit = false) ∨
      ∃ high low, units c = [high, low] ∧ isHighSurrogate high = true ∧ isLowSurrogate low = true := by
  rcases Nat.lt_or_ge c.toNat 0x10000 with hlt | hge
  · exact .inl ⟨_, units_of_lt hlt, not_surrogate_of_lt hlt⟩
  · exact .inr ⟨_, _, units_of_ge hge, isHighSurrogate_supplement c, isLowSurrogate_supplement c⟩

theorem not_high_of_not_surrogate {unit : UInt16} (h : isSurrogate unit = false) :
    isHighSurrogate unit = false := by
  rw [isSurrogate_eq_false_iff] at h
  rw [← Bool.not_eq_true, isHighSurrogate_iff]
  omega

theorem not_low_of_not_surrogate {unit : UInt16} (h : isSurrogate unit = false) :
    isLowSurrogate unit = false := by
  rw [isSurrogate_eq_false_iff] at h
  rw [← Bool.not_eq_true, isLowSurrogate_iff]
  omega

theorem not_high_of_low {unit : UInt16} (h : isLowSurrogate unit = true) :
    isHighSurrogate unit = false := by
  rw [isLowSurrogate_iff] at h
  rw [← Bool.not_eq_true, isHighSurrogate_iff]
  omega

theorem isSurrogate_of_high {unit : UInt16} (h : isHighSurrogate unit = true) :
    isSurrogate unit = true := by
  rw [isHighSurrogate_iff] at h
  rw [← Bool.not_eq_false, isSurrogate_eq_false_iff]
  omega

theorem isSurrogate_of_low {unit : UInt16} (h : isLowSurrogate unit = true) :
    isSurrogate unit = true := by
  rw [isLowSurrogate_iff] at h
  rw [← Bool.not_eq_false, isSurrogate_eq_false_iff]
  omega

theorem high_or_low {unit : UInt16} (h : isSurrogate unit = true) :
    isHighSurrogate unit = true ∨ isLowSurrogate unit = true := by
  rw [← Bool.not_eq_false, isSurrogate_eq_false_iff] at h
  rw [isHighSurrogate_iff, isLowSurrogate_iff]
  omega

end Scalar

theorem Lone.isSurrogate {unit : UInt16} {rest : List UInt16} (h : Lone (unit :: rest)) :
    isSurrogate unit = true := by
  by_cases hunit : StrictUtf8.isSurrogate unit = true
  · exact hunit
  · obtain ⟨c, hc⟩ := Scalar.exists_units_one (Bool.eq_false_iff.mpr hunit)
    exact (h c rest (by rw [hc, List.singleton_append])).elim

theorem Lone.not_startsPair {units : List UInt16} (h : Lone units) : startsPair units = false := by
  match units with
  | [] | [_] => rfl
  | high :: low :: rest =>
    refine Bool.eq_false_iff.mpr fun hpair => ?_
    rw [startsPair, Bool.and_eq_true] at hpair
    obtain ⟨c, hc⟩ := Scalar.exists_units_pair hpair.1 hpair.2
    exact h c rest (by rw [hc]; rfl)

theorem lone_of_not_startsPair {unit : UInt16} {rest : List UInt16} (hunit : isSurrogate unit = true)
    (hpair : startsPair (unit :: rest) = false) : Lone (unit :: rest) := by
  intro c more h
  rcases Scalar.units_cases c with ⟨alone, hc, halone⟩ | ⟨high, low, hc, hhigh, hlow⟩
  · rw [hc] at h
    obtain ⟨rfl, -⟩ := List.cons.inj h
    rw [hunit] at halone
    cases halone
  · rw [hc] at h
    have htrue : startsPair (unit :: rest) = true := by
      rw [h]
      show (isHighSurrogate high && isLowSurrogate low) = true
      rw [hhigh, hlow]
      rfl
    rw [htrue] at hpair
    cases hpair

theorem exists_text_split (units : List UInt16) :
    ∃ text tail, units = utf16 text ++ tail ∧ Lone tail := by
  by_cases h : ∃ c rest, units = Scalar.units c ++ rest
  · obtain ⟨c, rest, rfl⟩ := h
    have hshorter : rest.length < (Scalar.units c ++ rest).length := by
      have hpos := List.length_pos_iff.mpr (Scalar.units_ne_nil c)
      rw [List.length_append]
      omega
    obtain ⟨text, tail, rfl, htail⟩ := exists_text_split rest
    exact ⟨c :: text, tail, by rw [utf16, utf16, List.flatMap_cons, List.append_assoc], htail⟩
  · refine ⟨[], units, rfl, ?_⟩
    intro c rest hunits
    exact h ⟨c, rest, hunits⟩
termination_by units.length

def extras : List Char → Nat
  | [] => 0
  | c :: text => Scalar.extra c + extras text

theorem length_utf8 (text : List Char) : (utf8 text).length = (utf16 text).length + extras text := by
  induction text with
  | nil => rfl
  | cons c text ih =>
    rw [utf8, utf16, List.flatMap_cons, List.flatMap_cons, List.length_append, List.length_append,
      extras, Scalar.length_encode]
    rw [utf8, utf16] at ih
    omega

theorem extras_le (text : List Char) : extras text ≤ 2 * (utf16 text).length := by
  induction text with
  | nil => exact Nat.le_refl _
  | cons c text ih =>
    have hc := Scalar.extra_le c
    have hpos := List.length_pos_iff.mpr (Scalar.units_ne_nil c)
    rw [utf16, List.flatMap_cons, List.length_append, extras]
    rw [utf16] at ih
    omega

end StrictUtf8
