import StrictUtf8.Proofs.Decoders
import StrictUtf8.Proofs.Lengths

/-! Failures of the length estimate. Whether an index is unpaired shows in the units next to it, while the
scan pairs surrogates from the left. Both single out the same first index, and it is reported before a
length above the limit. -/

namespace StrictUtf8

def Closed (units : List UInt16) : Prop :=
  ∀ unit, units.getLast? = some unit → isHighSurrogate unit = false

theorem Closed.append {xs ys : List UInt16} (hxs : Closed xs) (hys : Closed ys) :
    Closed (xs ++ ys) := by
  intro unit hlast
  rw [List.getLast?_append, Option.or_eq_some_iff] at hlast
  rcases hlast with hlast | ⟨-, hlast⟩
  · exact hys unit hlast
  · exact hxs unit hlast

theorem closed_units (c : Char) : Closed (Scalar.units c) := by
  intro unit hlast
  rcases Scalar.units_cases c with ⟨alone, hc, halone⟩ | ⟨high, low, hc, -, hlow⟩
  · rw [hc] at hlast
    obtain rfl : alone = unit := Option.some.inj hlast
    exact Scalar.not_high_of_not_surrogate halone
  · rw [hc] at hlast
    obtain rfl : low = unit := Option.some.inj hlast
    exact Scalar.not_high_of_low hlow

theorem closed_utf16 (text : List Char) : Closed (utf16 text) := by
  induction text with
  | nil =>
    intro unit hlast
    cases hlast
  | cons c text ih =>
    rw [utf16, List.flatMap_cons, ← utf16]
    exact (closed_units c).append ih

theorem unpaired_append_iff {xs : List UInt16} (hxs : Closed xs) (rest : List UInt16) (j : Nat) :
    Unpaired (xs ++ rest) (xs.length + j) ↔ Unpaired rest j := by
  have hget : ∀ k, (xs ++ rest)[xs.length + k]? = rest[k]? := by
    intro k
    rw [List.getElem?_append_right (Nat.le_add_right _ _), Nat.add_sub_cancel_left]
  have hprevious :
      (∀ k previous, xs.length + j = k + 1 → (xs ++ rest)[k]? = some previous →
        isHighSurrogate previous = false) ↔
      (∀ k previous, j = k + 1 → rest[k]? = some previous → isHighSurrogate previous = false) := by
    constructor
    · intro h k previous hj hk
      exact h (xs.length + k) previous (by omega) ((hget k).trans hk)
    · intro h k previous hj hk
      match j with
      | 0 =>
        -- The unit before is the last of `xs`.
        have hlt : k < xs.length := by omega
        rw [List.getElem?_append_left hlt] at hk
        refine hxs previous ?_
        rw [List.getLast?_eq_getElem?, ← hk]
        exact congrArg (xs[·]?) (by omega)
      | j + 1 =>
        obtain rfl : k = xs.length + j := by omega
        exact h j previous rfl ((hget j).symm.trans hk)
  unfold Unpaired
  rw [Nat.add_assoc, hget, hget, hprevious]

theorem not_unpaired_units (c : Char) (rest : List UInt16) {i : Nat} (hi : i < (Scalar.units c).length) :
    ¬ Unpaired (Scalar.units c ++ rest) i := by
  rintro ⟨unit, hunit, hcase⟩
  rcases Scalar.units_cases c with ⟨alone, hc, halone⟩ | ⟨high, low, hc, hhigh, hlow⟩
  · rw [hc] at hi hunit
    obtain rfl : i = 0 := Nat.lt_one_iff.mp hi
    obtain rfl : alone = unit := Option.some.inj hunit
    rcases hcase with ⟨h, -⟩ | ⟨h, -⟩
    · simp [Scalar.not_high_of_not_surrogate halone] at h
    · simp [Scalar.not_low_of_not_surrogate halone] at h
  · rw [hc] at hi hunit hcase
    match i with
    | 0 =>
      obtain rfl : high = unit := Option.some.inj hunit
      rcases hcase with ⟨-, hnext⟩ | ⟨h, -⟩
      · simp [hnext low rfl] at hlow
      · simp [Scalar.not_high_of_low h] at hhigh
    | 1 =>
      obtain rfl : low = unit := Option.some.inj hunit
      rcases hcase with ⟨h, -⟩ | ⟨-, hprevious⟩
      · simp [Scalar.not_high_of_low hlow] at h
      · simp [hprevious 0 high rfl rfl] at hhigh
    | i + 2 => exact absurd hi (Nat.not_lt.mpr (Nat.le_add_left 2 i))

theorem not_unpaired_utf16 (text : List Char) (tail : List UInt16) {i : Nat}
    (hi : i < (utf16 text).length) : ¬ Unpaired (utf16 text ++ tail) i := by
  induction text generalizing i with
  | nil => exact absurd hi (Nat.not_lt_zero i)
  | cons c text ih =>
    rw [utf16, List.flatMap_cons, ← utf16] at hi ⊢
    rw [List.append_assoc]
    rcases Nat.lt_or_ge i (Scalar.units c).length with hlt | hge
    · exact not_unpaired_units c _ hlt
    · obtain ⟨j, rfl⟩ := Nat.exists_eq_add_of_le hge
      rw [unpaired_append_iff (closed_units c)]
      rw [List.length_append] at hi
      exact ih (by omega)

theorem Lone.unpaired {unit : UInt16} {rest : List UInt16} (h : Lone (unit :: rest)) :
    Unpaired (unit :: rest) 0 := by
  refine ⟨unit, rfl, ?_⟩
  rcases Scalar.high_or_low h.isSurrogate with hhigh | hlow
  · refine .inl ⟨hhigh, ?_⟩
    intro next hnext
    match rest with
    | [] => cases hnext
    | low :: rest =>
      obtain rfl : low = next := Option.some.inj hnext
      have hpair := h.not_startsPair
      rwa [startsPair, hhigh, Bool.true_and] at hpair
  · refine .inr ⟨hlow, ?_⟩
    intro k previous hk
    cases hk

def FirstUnpaired (units : List UInt16) (i : Nat) : Prop :=
  Unpaired units i ∧ ∀ j < i, ¬ Unpaired units j

theorem FirstUnpaired.unique {units : List UInt16} {i j : Nat} (hi : FirstUnpaired units i)
    (hj : FirstUnpaired units j) : i = j :=
  Nat.le_antisymm (Nat.not_lt.mp fun h => hi.2 j h hj.1) (Nat.not_lt.mp fun h => hj.2 i h hi.1)

theorem firstUnpaired_of_lone (text : List Char) {unit : UInt16} {rest : List UInt16}
    (h : Lone (unit :: rest)) :
    FirstUnpaired (utf16 text ++ unit :: rest) (utf16 text).length := by
  refine ⟨?_, ?_⟩
  · exact (unpaired_append_iff (closed_utf16 text) (unit :: rest) 0).mpr h.unpaired
  · intro j hj
    exact not_unpaired_utf16 text (unit :: rest) hj

theorem not_unpaired_of_text (text : List Char) (i : Nat) : ¬ Unpaired (utf16 text) i := by
  intro h
  obtain ⟨unit, hunit, -⟩ := id h
  obtain ⟨hi, -⟩ := List.getElem?_eq_some_iff.mp hunit
  have hnot := not_unpaired_utf16 text [] hi
  rw [List.append_nil] at hnot
  exact hnot h

theorem forall_not_unpaired_iff (units : List UInt16) :
    (∀ i, ¬ Unpaired units i) ↔ ∃ text, utf16 text = units := by
  constructor
  · intro h
    obtain ⟨text, tail, rfl, htail⟩ := exists_text_split units
    match tail with
    | [] => exact ⟨text, (List.append_nil _).symm⟩
    | unit :: rest => exact (h _ (firstUnpaired_of_lone text htail).1).elim
  · rintro ⟨text, rfl⟩
    exact not_unpaired_of_text text

theorem exists_firstUnpaired {units : List UInt16} (h : ∃ i, Unpaired units i) :
    ∃ i, FirstUnpaired units i := by
  obtain ⟨text, tail, rfl, htail⟩ := exists_text_split units
  match tail with
  | [] =>
    obtain ⟨i, hi⟩ := h
    rw [List.append_nil] at hi
    exact (not_unpaired_of_text text i hi).elim
  | unit :: rest => exact ⟨_, firstUnpaired_of_lone text htail⟩

def Reports (units : List UInt16) (out : Traced (Except LengthError UInt64)) : Prop :=
  match out.value with
  | .ok _ => out.events = []
  | .error (.unpairedSurrogate i) =>
    ∃ unit, units[i]? = some unit ∧ out.events = [.unpairedSurrogate i unit]
  | .error (.overflow computed limit) => out.events = [.lengthOverflow computed limit]

theorem utf8Length_cases {units : List UInt16} (h : units.length ≤ 0x3FFFFFFFFFFFFFFF)
    (settings : LengthSettings) :
    (∃ i unit, FirstUnpaired units i ∧ units[i]? = some unit ∧
      utf8Length units settings =
        ⟨.error (.unpairedSurrogate i), [.unpairedSurrogate i unit]⟩) ∨
    (∃ text computed, utf16 text = units ∧ computed.toNat = (utf8 text).length ∧
      utf8Length units settings = fitLength computed settings.maxLength) := by
  obtain ⟨text, tail, rfl, htail⟩ := exists_text_split units
  match tail with
  | [] =>
    rw [List.append_nil] at h ⊢
    exact .inr ⟨text, .ofNat (utf8 text).length, rfl, toNat_length_utf8 h,
      utf8Length_utf16 text settings⟩
  | unit :: rest =>
    refine .inl ⟨(utf16 text).length, unit, firstUnpaired_of_lone text htail, ?_,
      utf8Length_lone text htail settings⟩
    rw [List.getElem?_append_right (Nat.le_refl _), Nat.sub_self]
    rfl

theorem reports_fitLength (units : List UInt16) (computed limit : UInt64) :
    Reports units (fitLength computed limit) := by
  rcases UInt64.lt_or_le limit computed with hlt | hle
  · rw [fitLength_of_lt hlt]
    exact rfl
  · rw [fitLength_of_le hle]
    exact rfl

theorem value_fitLength_eq_overflow_iff {computed limit n bound : UInt64} :
    (fitLength computed limit).value = .error (.overflow n bound) ↔
      bound = limit ∧ n = computed ∧ limit < computed := by
  rcases UInt64.lt_or_le limit computed with hlt | hle
  · rw [fitLength_of_lt hlt]
    constructor
    · rintro ⟨⟩
      exact ⟨rfl, rfl, hlt⟩
    · rintro ⟨rfl, rfl, -⟩
      rfl
  · rw [fitLength_of_le hle]
    refine iff_of_false ?_ ?_
    · intro hvalue
      cases hvalue
    · rintro ⟨-, -, hlt⟩
      exact UInt64.not_lt.mpr hle hlt

theorem value_fitLength_ne_unpaired {computed limit : UInt64} {i : Nat} :
    (fitLength computed limit).value ≠ .error (.unpairedSurrogate i) := by
  intro hvalue
  unfold fitLength at hvalue
  split at hvalue <;> cases hvalue

theorem utf8Length_fails_iff {units : List UInt16} (h : units.length ≤ 0x3FFFFFFFFFFFFFFF)
    (settings : LengthSettings) :
    (∀ i, (utf8Length units settings).value = .error (.unpairedSurrogate i) ↔
      FirstUnpaired units i) ∧
    ((∀ i, ¬ Unpaired units i) ↔ ∃ text, utf16 text = units) ∧
    (∀ computed limit, (utf8Length units settings).value = .error (.overflow computed limit) ↔
      (∀ i, ¬ Unpaired units i) ∧ limit = settings.maxLength ∧
        ∃ text, utf16 text = units ∧ computed.toNat = (utf8 text).length ∧
          settings.maxLength.toNat < (utf8 text).length) ∧
    Reports units (utf8Length units settings) := by
  refine ⟨?_, forall_not_unpaired_iff units, ?_, ?_⟩
  · intro i
    rcases utf8Length_cases h settings with ⟨j, unit, hj, -, hout⟩ | ⟨text, computed, htext, -, hout⟩
    · rw [hout]
      constructor
      · rintro ⟨⟩
        exact hj
      · intro hi
        rw [hi.unique hj]
    · rw [hout]
      refine iff_of_false value_fitLength_ne_unpaired ?_
      intro hi
      exact (forall_not_unpaired_iff units).mpr ⟨text, htext⟩ i hi.1
  · intro computed limit
    rcases utf8Length_cases h settings with ⟨j, unit, hj, -, hout⟩ | ⟨text, length, rfl, hlength, hout⟩
    · rw [hout]
      refine iff_of_false ?_ ?_
      · intro hvalue
        cases hvalue
      · rintro ⟨hnone, -⟩
        exact hnone j hj.1
    · rw [hout, value_fitLength_eq_overflow_iff, UInt64.lt_iff_toNat_lt, hlength]
      constructor
      · rintro ⟨hlimit, rfl, hlt⟩
        exact ⟨not_unpaired_of_text text, hlimit, text, rfl, hlength, hlt⟩
      · rintro ⟨-, hlimit, text', htext', hcomputed, hlt⟩
        obtain rfl := utf16_injective htext'
        have hsame : computed = length := UInt64.toNat_inj.mp (hcomputed.trans hlength.symm)
        exact ⟨hlimit, hsame, hlt⟩
  · rcases utf8Length_cases h settings with ⟨j, unit, -, hunit, hout⟩ | ⟨text, length, -, -, hout⟩
    · rw [hout]
      exact ⟨unit, hunit, rfl⟩
    · rw [hout]
      exact reports_fitLength units length settings.maxLength

/-- The first of two high surrogates has no partner, though the second has one and the limit is passed. -/
theorem utf8Length_high_high_low :
    ([0x61, 0xD83D, 0xD83D, 0xDE00, 0xDC00] : List UInt16).length ≤ 0x3FFFFFFFFFFFFFFF ∧
      FirstUnpaired [0x61, 0xD83D, 0xD83D, 0xDE00, 0xDC00] 1 ∧
      (utf8Length [0x61, 0xD83D, 0xD83D, 0xDE00, 0xDC00] ⟨2⟩).value =
        .error (.unpairedSurrogate 1) := by
  have hlen : ([0x61, 0xD83D, 0xD83D, 0xDE00, 0xDC00] : List UInt16).length ≤ 0x3FFFFFFFFFFFFFFF := by
    decide
  have hfirst : FirstUnpaired [0x61, 0xD83D, 0xD83D, 0xDE00, 0xDC00] 1 := by
    refine ⟨⟨0xD83D, rfl, .inl ⟨rfl, ?_⟩⟩, ?_⟩
    · intro next hnext
      obtain rfl := Option.some.inj hnext
      rfl
    · rintro j hj ⟨unit, hunit, hcase⟩
      obtain rfl := Nat.lt_one_iff.mp hj
      obtain rfl := Option.some.inj hunit
      rcases hcase with ⟨hhigh, -⟩ | ⟨hlow, -⟩
      · cases hhigh
      · cases hlow
  exact ⟨hlen, hfirst, ((utf8Length_fails_iff hlen ⟨2⟩).1 1).mpr hfirst⟩

end StrictUtf8
