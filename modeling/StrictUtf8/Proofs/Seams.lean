import StrictUtf8.Proofs.Unpaired

/-! The length estimate of units put one after the other. Unless a surrogate pair lies across the seam, it
fails where the first part fails, or else where the second does, or else adds up both lengths. A pair
across the seam counts as four bytes between the two parts. -/

namespace StrictUtf8

def CutsPair (a b : List UInt16) : Prop :=
  ∃ high low, a.getLast? = some high ∧ b.head? = some low ∧
    isHighSurrogate high = true ∧ isLowSurrogate low = true

def TakesBytes (units : List UInt16) (n : Nat) : Prop :=
  ∃ text, utf16 text = units ∧ (utf8 text).length = n

inductive Measured (n : Nat) (limit : UInt64) : Traced (Except LengthError UInt64) → Prop
  | within {computed : UInt64} : computed.toNat = n → n ≤ limit.toNat →
      Measured n limit ⟨.ok computed, []⟩
  | above {computed : UInt64} : computed.toNat = n → limit.toNat < n →
      Measured n limit ⟨.error (.overflow computed limit), [.lengthOverflow computed limit]⟩

/-- What an estimate finds in `units` behind others, `count` of them, that take `size` bytes. It fails where
it fails on `units` alone, as far behind the others; without an unpaired surrogate it adds the bytes. -/
structure Continues (units : List UInt16) (settings : LengthSettings) (count size : Nat)
    (out : Traced (Except LengthError UInt64)) : Prop where
  unpaired : ∀ j, (utf8Length units settings).value = .error (.unpairedSurrogate j) →
    ∃ unit, units[j]? = some unit ∧
      out = ⟨.error (.unpairedSurrogate (count + j)), [.unpairedSurrogate (count + j) unit]⟩
  measured : (∀ j, ¬ Unpaired units j) →
    ∃ n, TakesBytes units n ∧ Measured (size + n) settings.maxLength out

theorem Lone.append {unit : UInt16} {rest b : List UInt16} (h : Lone (unit :: rest))
    (hcut : ¬ CutsPair (unit :: rest) b) : Lone (unit :: rest ++ b) := by
  apply lone_of_not_startsPair h.isSurrogate
  match rest with
  | next :: more => exact h.not_startsPair
  | [] =>
    match b with
    | [] => rfl
    | low :: more =>
      apply Bool.eq_false_iff.mpr
      intro hpair
      have hboth : isHighSurrogate unit = true ∧ isLowSurrogate low = true := by
        show isHighSurrogate unit = true ∧ isLowSurrogate low = true
        exact Bool.and_eq_true_iff.mp hpair
      exact hcut ⟨unit, low, rfl, rfl, hboth.1, hboth.2⟩

theorem cutsPair_append_left {xs a : List UInt16} (ha : a ≠ []) (b : List UInt16) :
    CutsPair (xs ++ a) b ↔ CutsPair a b := by
  have hlast : (xs ++ a).getLast? = a.getLast? := by
    rw [List.getLast?_append, List.getLast?_eq_some_getLast ha, Option.some_or]
  rw [CutsPair, CutsPair, hlast]

theorem measured_utf8Length {text : List Char} (h : (utf16 text).length ≤ 0x3FFFFFFFFFFFFFFF)
    (settings : LengthSettings) :
    Measured (utf8 text).length settings.maxLength (utf8Length (utf16 text) settings) := by
  have hlength := toNat_length_utf8 h
  rw [utf8Length_utf16]
  rcases UInt64.lt_or_le settings.maxLength (.ofNat (utf8 text).length) with hlt | hle
  · rw [fitLength_of_lt hlt]
    exact .above hlength (hlength ▸ UInt64.lt_iff_toNat_lt.mp hlt)
  · rw [fitLength_of_le hle]
    exact .within hlength (hlength ▸ UInt64.le_iff_toNat_le.mp hle)

theorem continues_text {text : List Char} {b : List UInt16}
    (h : (utf16 text ++ b).length ≤ 0x3FFFFFFFFFFFFFFF) (settings : LengthSettings) :
    Continues b settings (utf16 text).length (utf8 text).length
      (utf8Length (utf16 text ++ b) settings) := by
  obtain ⟨more, tail, rfl, htail⟩ := exists_text_split b
  match tail with
  | [] =>
    rw [List.append_nil] at h ⊢
    rw [← utf16_append] at h ⊢
    constructor
    · intro j hvalue
      rw [utf8Length_utf16] at hvalue
      exact (value_fitLength_ne_unpaired hvalue).elim
    · intro _
      have hmeasured := measured_utf8Length h settings
      rw [utf8_append, List.length_append] at hmeasured
      exact ⟨(utf8 more).length, ⟨more, rfl, rfl⟩, hmeasured⟩
  | unit :: rest =>
    constructor
    · intro j hvalue
      rw [utf8Length_lone more htail] at hvalue
      obtain rfl := LengthError.unpairedSurrogate.inj (Except.error.inj hvalue)
      refine ⟨unit, ?_, ?_⟩
      · rw [List.getElem?_append_right (Nat.le_refl _), Nat.sub_self]
        rfl
      · rw [← List.append_assoc, ← utf16_append, utf8Length_lone (text ++ more) htail, utf16_append,
          List.length_append]
    · intro hnone
      exact (hnone _ (firstUnpaired_of_lone more htail).1).elim

theorem utf8Length_append_of_unpaired {a b : List UInt16} {i : Nat} (hi : FirstUnpaired a i)
    (hcut : ¬ CutsPair a b) (settings : LengthSettings) :
    (utf8Length a settings).value = .error (.unpairedSurrogate i) ∧
      utf8Length (a ++ b) settings = utf8Length a settings := by
  obtain ⟨text, tail, rfl, htail⟩ := exists_text_split a
  match tail with
  | [] =>
    rw [List.append_nil] at hi
    exact (not_unpaired_of_text text i hi.1).elim
  | unit :: rest =>
    obtain rfl := hi.unique (firstUnpaired_of_lone text htail)
    rw [cutsPair_append_left (List.cons_ne_nil unit rest)] at hcut
    have hlone : Lone (unit :: rest ++ b) := htail.append hcut
    rw [List.append_assoc, utf8Length_lone text htail]
    exact ⟨rfl, utf8Length_lone text hlone settings⟩

theorem exists_pair_text {high low : UInt16} (hhigh : isHighSurrogate high = true)
    (hlow : isLowSurrogate low = true) :
    ∃ c, utf16 [c] = [high, low] ∧ (utf8 [c]).length = 4 := by
  obtain ⟨c, hc⟩ := Scalar.exists_units_pair hhigh hlow
  have hunits : utf16 [c] = [high, low] := by
    rw [utf16, List.flatMap_singleton, hc]
  have hge : 0x10000 ≤ c.toNat := by
    apply Nat.le_of_not_lt
    intro hlt
    rw [Scalar.units_of_lt hlt] at hc
    cases hc
  refine ⟨c, hunits, ?_⟩
  rw [length_utf8, hunits, extras, extras, Scalar.extra_of_ge (by omega)]
  rfl

theorem utf8Length_halves (text : List Char) {high low : UInt16} (hhigh : isHighSurrogate high = true)
    (hlow : isLowSurrogate low = true) (rest : List UInt16) (settings : LengthSettings) :
    (utf8Length (utf16 text ++ [high]) settings).value =
        .error (.unpairedSurrogate (utf16 text).length) ∧
      (utf8Length (low :: rest) settings).value = .error (.unpairedSurrogate 0) := by
  have hlone : Lone [high] := lone_of_not_startsPair (Scalar.isSurrogate_of_high hhigh) rfl
  have hlone' : Lone (low :: rest) := by
    apply lone_of_not_startsPair (Scalar.isSurrogate_of_low hlow)
    match rest with
    | [] => rfl
    | next :: rest => rw [startsPair, Scalar.not_high_of_low hlow, Bool.false_and]
  rw [utf8Length_lone text hlone]
  have hfront := utf8Length_lone [] hlone' settings
  exact ⟨rfl, congrArg Traced.value hfront⟩

theorem utf8Length_append {a b : List UInt16} (h : (a ++ b).length ≤ 0x3FFFFFFFFFFFFFFF)
    (settings : LengthSettings) :
    (¬ CutsPair a b →
      ((∃ i, Unpaired a i) →
        ∃ i, FirstUnpaired a i ∧ (utf8Length a settings).value = .error (.unpairedSurrogate i) ∧
          utf8Length (a ++ b) settings = utf8Length a settings) ∧
      ((∀ i, ¬ Unpaired a i) →
        ∃ x, TakesBytes a x ∧
          Continues b settings a.length x (utf8Length (a ++ b) settings))) ∧
    (∀ front high low back, a = front ++ [high] → b = low :: back →
      isHighSurrogate high = true → isLowSurrogate low = true → (∀ i, ¬ Unpaired front i) →
        (utf8Length a settings).value = .error (.unpairedSurrogate (a.length - 1)) ∧
        (utf8Length b settings).value = .error (.unpairedSurrogate 0) ∧
        ∃ x, TakesBytes front x ∧
          Continues back settings (front.length + 2) (x + 4) (utf8Length (a ++ b) settings)) := by
  refine ⟨?_, ?_⟩
  · intro hcut
    constructor
    · intro hunpaired
      obtain ⟨i, hi⟩ := exists_firstUnpaired hunpaired
      exact ⟨i, hi, utf8Length_append_of_unpaired hi hcut settings⟩
    · intro hnone
      obtain ⟨text, rfl⟩ := (forall_not_unpaired_iff a).mp hnone
      exact ⟨(utf8 text).length, ⟨text, rfl, rfl⟩, continues_text h settings⟩
  · rintro front high low back rfl rfl hhigh hlow hnone
    obtain ⟨text, rfl⟩ := (forall_not_unpaired_iff front).mp hnone
    obtain ⟨c, hunits, hbytes⟩ := exists_pair_text hhigh hlow
    have hhalves := utf8Length_halves text hhigh hlow back settings
    have hwhole : utf16 text ++ [high] ++ low :: back = utf16 (text ++ [c]) ++ back := by
      rw [utf16_append, hunits, List.append_assoc, List.append_assoc]
      rfl
    have hcount : (utf16 (text ++ [c])).length = (utf16 text).length + 2 := by
      rw [utf16_append, hunits, List.length_append]
      rfl
    have hsize : (utf8 (text ++ [c])).length = (utf8 text).length + 4 := by
      rw [utf8_append, List.length_append, hbytes]
    rw [hwhole] at h
    have hcontinues := continues_text h settings
    rw [hcount, hsize, ← hwhole] at hcontinues
    rw [List.length_append]
    exact ⟨hhalves.1, hhalves.2, (utf8 text).length, ⟨text, rfl, rfl⟩, hcontinues⟩

/-- Behind `aé` a lone low surrogate fails as far on; behind the first half of `😀` the second completes
the sign, of four bytes. -/
theorem utf8Length_append_torn :
    ([0x61, 0xE9] ++ [0x4E2D, 0xDC00] : List UInt16).length ≤ 0x3FFFFFFFFFFFFFFF ∧
      ¬ CutsPair [0x61, 0xE9] [0x4E2D, 0xDC00] ∧
      (utf8Length ([0x61, 0xE9] ++ [0x4E2D, 0xDC00]) ⟨2⟩).value = .error (.unpairedSurrogate 3) ∧
      ([0x61, 0xD83D] ++ [0xDE00, 0xE9] : List UInt16).length ≤ 0x3FFFFFFFFFFFFFFF ∧
      (utf8Length [0x61, 0xD83D] ⟨6⟩).value = .error (.unpairedSurrogate 1) ∧
      (utf8Length [0xDE00, 0xE9] ⟨6⟩).value = .error (.unpairedSurrogate 0) ∧
      Measured 7 6 (utf8Length ([0x61, 0xD83D] ++ [0xDE00, 0xE9]) ⟨6⟩) := by
  have hlen : ([0x61, 0xE9] ++ [0x4E2D, 0xDC00] : List UInt16).length ≤ 0x3FFFFFFFFFFFFFFF := by
    decide
  have hcut : ¬ CutsPair [0x61, 0xE9] [0x4E2D, 0xDC00] := by
    rintro ⟨high, low, hlast, -, hhigh, -⟩
    obtain rfl := Option.some.inj hlast
    cases hhigh
  have hnone : ∀ i, ¬ Unpaired [0x61, 0xE9] i := not_unpaired_of_text ['a', '\u00E9']
  obtain ⟨x, -, hcontinues⟩ := ((utf8Length_append hlen ⟨2⟩).1 hcut).2 hnone
  obtain ⟨unit, -, hout⟩ := hcontinues.unpaired 1 (by cbv)
  have hlen' : ([0x61, 0xD83D] ++ [0xDE00, 0xE9] : List UInt16).length ≤ 0x3FFFFFFFFFFFFFFF := by
    decide
  have hnone' : ∀ i, ¬ Unpaired [0x61] i := not_unpaired_of_text ['a']
  obtain ⟨hleft, hright, x, ⟨text, htext, rfl⟩, hcontinues'⟩ :=
    (utf8Length_append hlen' ⟨6⟩).2 [0x61] 0xD83D 0xDE00 [0xE9] rfl rfl rfl rfl hnone'
  obtain ⟨n, ⟨more, hmore, rfl⟩, hmeasured⟩ :=
    hcontinues'.measured (not_unpaired_of_text ['\u00E9'])
  obtain rfl : text = ['a'] := utf16_injective htext
  obtain rfl : more = ['\u00E9'] := utf16_injective hmore
  exact ⟨hlen, hcut, congrArg Traced.value hout, hlen', hleft, hright, hmeasured⟩

end StrictUtf8
