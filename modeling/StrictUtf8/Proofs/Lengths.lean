import StrictUtf8.Length
import StrictUtf8.Proofs.Units

/-! The length estimate. The stages together find what the general scan finds alone, and the scan passes
over a text scalar value by scalar value, adding what each takes beyond one byte a unit. -/

namespace StrictUtf8
namespace Scan

theorem toNat_narrowExtra (unit : UInt16) :
    (narrowExtra unit).toNat = (0x10000 - unit.toNat + 0x7F) % 0x10000 / 0x8000 := by
  rw [narrowExtra, UInt16.toNat_toUInt64, UInt16.toNat_shiftRight, UInt16.toNat_sub,
    Nat.shiftRight_eq_div_pow]
  rfl

theorem narrowExtra_of_ascii {unit : UInt16} (h : unit.toNat ≤ 0x7F) : narrowExtra unit = 0 := by
  rw [← UInt64.toNat_inj, toNat_narrowExtra, UInt64.toNat_zero]
  omega

theorem narrowExtra_of_not_ascii {unit : UInt16} (h : 0x7F < unit.toNat) (h' : unit.toNat < 0x800) :
    narrowExtra unit = 1 := by
  rw [← UInt64.toNat_inj, toNat_narrowExtra, UInt64.toNat_one]
  omega

theorem narrow_iff (unit : UInt16) : unit < 0x800 ↔ unit.toNat < 0x800 := UInt16.lt_iff_toNat_lt

section Turns
variable {unit : UInt16} {rest : List UInt16} {index : Nat} {x : UInt64}

theorem turn_narrow (h : unit < 0x800) :
    turn ⟨unit :: rest, index, x⟩ = .moved ⟨rest, index + 1, x + narrowExtra unit⟩ := if_pos h

theorem turn_wide (h : ¬unit < 0x800) (hunit : isSurrogate unit = false) :
    turn ⟨unit :: rest, index, x⟩ = .moved ⟨rest, index + 1, x + 2⟩ := by
  rw [turn]
  dsimp only
  rw [if_neg h, hunit]
  rfl

theorem turn_pair {low : UInt16} (h : isHighSurrogate unit = true) (hlow : isLowSurrogate low = true) :
    turn ⟨unit :: low :: rest, index, x⟩ = .moved ⟨rest, index + 2, x + 2⟩ := by
  have hpair : startsPair (unit :: low :: rest) = true := by rw [startsPair, h, hlow, Bool.and_true]
  rw [Scalar.isHighSurrogate_iff] at h
  have hnarrow : ¬unit < 0x800 := by
    rw [narrow_iff]
    omega
  have hunit : isSurrogate unit = true := by
    rw [← Bool.not_eq_false, Scalar.isSurrogate_eq_false_iff]
    omega
  rw [turn]
  dsimp only
  rw [if_neg hnarrow, hunit, hpair]
  rfl

theorem turn_lone (h : Lone (unit :: rest)) : turn ⟨unit :: rest, index, x⟩ = .unpaired unit := by
  have hunit := h.isSurrogate
  have hnarrow : ¬unit < 0x800 := by
    rw [← Bool.not_eq_false, Scalar.isSurrogate_eq_false_iff] at hunit
    rw [narrow_iff]
    omega
  rw [turn]
  dsimp only
  rw [if_neg hnarrow, hunit, h.not_startsPair]
  rfl

end Turns

theorem run_eq (s : Scan) : s.run =
    match s.turn with
    | .finished => pure (.ok s.extra)
    | .moved next => next.run
    | .unpaired unit => ⟨.error (.unpairedSurrogate s.index), [.unpairedSurrogate s.index unit]⟩ := by
  rw [run]
  split
  next h => rw [h]
  next next h => rw [h]
  next unit h =>
    rw [h]
    rfl

theorem run_moved {s next : Scan} (h : s.turn = .moved next) : s.run = next.run := by
  rw [run_eq, h]

theorem run_finished {s : Scan} (h : s.rest = []) : s.run = pure (.ok s.extra) := by
  have hturn : s.turn = .finished := by
    unfold turn
    split
    · rfl
    next hs => exact (List.cons_ne_nil _ _ (hs.symm.trans h)).elim
  rw [run_eq, hturn]

def plus (x : UInt64) (s : Scan) : Scan := { s with extra := x + s.extra }

theorem turn_plus (x : UInt64) (s : Scan) : (s.plus x).turn =
    match s.turn with
    | .finished => .finished
    | .moved next => .moved (next.plus x)
    | .unpaired unit => .unpaired unit := by
  obtain ⟨units, index, extra⟩ := s
  unfold turn plus
  dsimp only
  split
  · rfl
  · rw [UInt64.add_assoc, UInt64.add_assoc]
    split
    · rfl
    split
    · rfl
    split <;> rfl

theorem run_plus (x : UInt64) (s : Scan) : (s.plus x).run = (·.map (x + ·)) <$> s.run := by
  fun_induction run s with
  | case1 s h =>
    rw [run_eq, turn_plus, h]
    rfl
  | case2 s next h ih =>
    rw [run_eq, turn_plus, h]
    exact ih
  | case3 s unit h =>
    rw [run_eq, turn_plus, h]
    rfl

theorem narrowTurn_cases {s next : Scan} (h : s.narrowTurn = some next) :
    ∃ unit rest, s.rest = unit :: rest ∧ unit < 0x800 ∧
      next = ⟨rest, s.index + 1, s.extra + narrowExtra unit⟩ := by
  unfold narrowTurn at h
  split at h
  · cases h
  next unit rest hs =>
    split at h
    next hunit =>
      cases h
      exact ⟨unit, rest, hs, hunit, rfl⟩
    · cases h

theorem turn_of_narrowTurn {s next : Scan} (h : s.narrowTurn = some next) : s.turn = .moved next := by
  obtain ⟨unit, rest, hs, hunit, rfl⟩ := narrowTurn_cases h
  obtain ⟨units, index, extra⟩ := s
  subst hs
  exact turn_narrow hunit

theorem run_skipNarrow (s : Scan) : s.skipNarrow.run = s.run := by
  fun_induction skipNarrow s with
  | case1 s next h ih => rw [ih, run_moved (turn_of_narrowTurn h)]
  | case2 s h => rfl

theorem rest_skipNarrow {units : List UInt16} {s : Scan} (hs : s.rest = units.drop s.index) :
    s.skipNarrow.rest = units.drop s.skipNarrow.index := by
  fun_induction skipNarrow s with
  | case1 s next h ih =>
    apply ih
    obtain ⟨unit, rest, hrest, -, rfl⟩ := narrowTurn_cases h
    rw [← List.drop_drop, ← hs, hrest, List.drop_one, List.tail_cons]
  | case2 s h => exact hs

theorem narrowExtra_eq {unit : UInt16} (h : unit < 0x800) :
    narrowExtra unit = .ofNat (if decide (0x80 ≤ unit) then 1 else 0) := by
  rw [narrow_iff] at h
  by_cases hwide : 0x80 ≤ unit
  · have hlt : 0x7F < unit.toNat := UInt16.le_iff_toNat_le.mp hwide
    rw [narrowExtra_of_not_ascii hlt h, if_pos (decide_eq_true hwide)]
    rfl
  · have hle : unit.toNat ≤ 0x7F :=
      Nat.le_of_not_lt fun hlt => hwide (UInt16.le_iff_toNat_le.mpr hlt)
    rw [narrowExtra_of_ascii hle, if_neg (Bool.eq_false_iff.mp (decide_eq_false hwide))]
    rfl

theorem run_narrow {xs : List UInt16} (hxs : ∀ unit ∈ xs, unit < 0x800) (rest : List UInt16)
    (index : Nat) (x : UInt64) : run ⟨xs ++ rest, index, x⟩ =
      run ⟨rest, index + xs.length, x + .ofNat (xs.countP (0x80 ≤ ·))⟩ := by
  induction xs generalizing index x with
  | nil => exact congrArg (fun x => run ⟨rest, index, x⟩) (UInt64.add_zero x).symm
  | cons unit xs ih =>
    obtain ⟨hunit, hxs⟩ := List.forall_mem_cons.mp hxs
    rw [List.cons_append, run_moved (turn_narrow hunit), ih hxs, List.length_cons, List.countP_cons,
      narrowExtra_eq hunit, UInt64.ofNat_add, UInt64.add_assoc, UInt64.add_comm (.ofNat _) (.ofNat _),
      Nat.add_assoc, Nat.add_comm 1]

theorem ascii_before_findIdx (units : List UInt16) :
    ∀ unit ∈ units.take (units.findIdx (0x7F < ·)), unit.toNat ≤ 0x7F := by
  intro unit hunit
  obtain ⟨i, hi, rfl⟩ := List.mem_take_iff_getElem.mp hunit
  have hascii := List.not_of_lt_findIdx (Nat.lt_of_lt_of_le hi (Nat.min_le_left _ _))
  rw [decide_eq_false_iff_not, UInt16.not_lt, UInt16.le_iff_toNat_le] at hascii
  exact hascii

theorem run_findIdx (units : List UInt16) :
    (start units (units.findIdx (0x7F < ·))).run = (start units 0).run := by
  have hascii := ascii_before_findIdx units
  have hnarrow : ∀ unit ∈ units.take (units.findIdx (0x7F < ·)), unit < 0x800 := by
    intro unit hunit
    have hle := hascii unit hunit
    rw [narrow_iff]
    omega
  have hcount : (units.take (units.findIdx (0x7F < ·))).countP (0x80 ≤ ·) = 0 := by
    rw [List.countP_eq_zero]
    intro unit hunit hle
    have hle' := hascii unit hunit
    rw [decide_eq_true_eq, UInt16.le_iff_toNat_le] at hle
    exact Nat.not_succ_le_self 0x7F (Nat.le_trans hle hle')
  have hrun := run_narrow hnarrow (units.drop (units.findIdx (0x7F < ·))) 0 0
  rw [List.take_append_drop, List.length_take_of_le List.findIdx_le_length, Nat.zero_add, hcount] at hrun
  exact hrun.symm

theorem narrowExtra_units {c : Char} (h : c.toNat < 0x800) :
    narrowExtra c.toNat.toUInt16 = .ofNat (Scalar.extra c) := by
  have hunit : c.toNat.toUInt16.toNat = c.toNat := Scalar.toNat_toUInt16 (by omega)
  unfold Scalar.extra
  by_cases hascii : c.toNat ≤ 0x7F
  · rw [if_pos hascii, narrowExtra_of_ascii (by omega)]
    rfl
  · rw [if_neg hascii, if_pos (by omega), narrowExtra_of_not_ascii (by omega) (by omega)]
    rfl

theorem turn_units (c : Char) (rest : List UInt16) (index : Nat) (x : UInt64) :
    turn ⟨Scalar.units c ++ rest, index, x⟩ =
      .moved ⟨rest, index + (Scalar.units c).length, x + .ofNat (Scalar.extra c)⟩ := by
  by_cases hpair : 0x10000 ≤ c.toNat
  · rw [Scalar.units_of_ge hpair, Scalar.extra_of_ge (by omega)]
    exact turn_pair (Scalar.isHighSurrogate_supplement c) (Scalar.isLowSurrogate_supplement c)
  rw [Nat.not_le] at hpair
  have hunit : c.toNat.toUInt16.toNat = c.toNat := Scalar.toNat_toUInt16 hpair
  rw [Scalar.units_of_lt hpair, List.singleton_append]
  by_cases hnarrow : c.toNat < 0x800
  · rw [← narrowExtra_units hnarrow]
    exact turn_narrow (by rwa [narrow_iff, hunit])
  · rw [Scalar.extra_of_ge (Nat.le_of_not_lt hnarrow)]
    exact turn_wide (by rwa [narrow_iff, hunit]) (Scalar.not_surrogate_of_lt hpair)

theorem run_text (text : List Char) (rest : List UInt16) (index : Nat) (x : UInt64) :
    run ⟨utf16 text ++ rest, index, x⟩ =
      run ⟨rest, index + (utf16 text).length, x + .ofNat (extras text)⟩ := by
  induction text generalizing index x with
  | nil => exact congrArg (fun x => run ⟨rest, index, x⟩) (UInt64.add_zero x).symm
  | cons c text ih =>
    rw [utf16, List.flatMap_cons, ← utf16, List.append_assoc, run_moved (turn_units c _ index x), ih,
      List.length_append, extras, Nat.add_assoc, UInt64.add_assoc, UInt64.ofNat_add]

end Scan

theorem extraBytes_eq (units : List UInt16) : extraBytes units = extraFrom units 0 := by
  have hrest := Scan.rest_skipNarrow (s := Scan.start units (units.findIdx (0x7F < ·))) rfl
  rw [extraFrom, ← Scan.run_findIdx, ← Scan.run_skipNarrow, extraBytes]
  generalize (Scan.start units (units.findIdx (0x7F < ·))).skipNarrow = narrow at hrest ⊢
  split
  next h => exact (Scan.run_finished h).symm
  -- The last stage starts at nothing again, and what the narrow stage found is added to its result.
  · have hplus : narrow = (Scan.start units narrow.index).plus narrow.extra := by
      rw [Scan.plus, Scan.start, ← hrest, UInt64.add_zero]
    have hrun := Scan.run_plus narrow.extra (Scan.start units narrow.index)
    rw [← hplus] at hrun
    exact hrun.symm

theorem extraBytes_utf16 (text : List Char) :
    extraBytes (utf16 text) = pure (.ok (.ofNat (extras text))) := by
  have hrun := Scan.run_text text [] 0 0
  rw [Scan.run_finished (s := ⟨[], _, _⟩) rfl, List.append_nil, UInt64.zero_add] at hrun
  rw [extraBytes_eq]
  exact hrun

theorem extraBytes_lone (text : List Char) {unit : UInt16} {rest : List UInt16}
    (h : Lone (unit :: rest)) :
    extraBytes (utf16 text ++ unit :: rest) =
      ⟨.error (.unpairedSurrogate (utf16 text).length),
        [.unpairedSurrogate (utf16 text).length unit]⟩ := by
  have hrun := Scan.run_text text (unit :: rest) 0 0
  rw [Scan.run_eq ⟨unit :: rest, _, _⟩, Scan.turn_lone h, Nat.zero_add] at hrun
  rw [extraBytes_eq]
  exact hrun

theorem utf8Length_utf16 (text : List Char) (settings : LengthSettings) :
    utf8Length (utf16 text) settings = fitLength (.ofNat (utf8 text).length) settings.maxLength := by
  rw [utf8Length, extraBytes_utf16, length_utf8, UInt64.ofNat_add]
  rfl

theorem utf8Length_lone (text : List Char) {unit : UInt16} {rest : List UInt16}
    (h : Lone (unit :: rest)) (settings : LengthSettings) :
    utf8Length (utf16 text ++ unit :: rest) settings =
      ⟨.error (.unpairedSurrogate (utf16 text).length),
        [.unpairedSurrogate (utf16 text).length unit]⟩ := by
  rw [utf8Length, extraBytes_lone text h]
  rfl

theorem fitLength_of_le {computed limit : UInt64} (h : computed ≤ limit) :
    fitLength computed limit = ⟨.ok computed, []⟩ := if_pos h

theorem fitLength_of_lt {computed limit : UInt64} (h : limit < computed) :
    fitLength computed limit =
      ⟨.error (.overflow computed limit), [.lengthOverflow computed limit]⟩ :=
  if_neg (UInt64.not_le.mpr h)

theorem value_fitLength_eq_ok_iff {computed limit n : UInt64} :
    (fitLength computed limit).value = .ok n ↔ n = computed ∧ n ≤ limit := by
  unfold fitLength
  split
  next h =>
    rw [Traced.value_pure, Except.ok.injEq, eq_comm]
    refine ⟨?_, And.left⟩
    rintro rfl
    exact ⟨rfl, h⟩
  next h =>
    refine iff_of_false ?_ ?_
    · intro hvalue
      cases hvalue
    · rintro ⟨rfl, hn⟩
      exact h hn

theorem lt_size_of_le {units : List UInt16} (h : units.length ≤ 0x3FFFFFFFFFFFFFFF) {n : Nat}
    (hn : n ≤ 3 * units.length + 2) : n < UInt64.size := by
  rw [UInt64.size]
  omega

theorem toNat_length_utf8 {text : List Char} (h : (utf16 text).length ≤ 0x3FFFFFFFFFFFFFFF) :
    (UInt64.ofNat (utf8 text).length).toNat = (utf8 text).length := by
  have hle := extras_le text
  have hlt : (utf8 text).length < UInt64.size := by
    apply lt_size_of_le h
    rw [length_utf8]
    omega
  exact UInt64.toNat_ofNat_of_lt' hlt

theorem utf8Length_eq_ok_iff {units : List UInt16} (h : units.length ≤ 0x3FFFFFFFFFFFFFFF)
    (settings : LengthSettings) (n : UInt64) :
    (utf8Length units settings).value = .ok n ↔
      ∃ text, utf16 text = units ∧ n.toNat = (utf8 text).length ∧ n ≤ settings.maxLength := by
  constructor
  · intro hvalue
    obtain ⟨text, tail, rfl, htail⟩ := exists_text_split units
    match tail with
    | [] =>
      rw [List.append_nil] at h hvalue ⊢
      rw [utf8Length_utf16, value_fitLength_eq_ok_iff] at hvalue
      obtain ⟨rfl, hmax⟩ := hvalue
      exact ⟨text, rfl, toNat_length_utf8 h, hmax⟩
    | unit :: rest =>
      rw [utf8Length_lone text htail] at hvalue
      cases hvalue
  -- The units are those of the given text, so no two texts need be compared.
  · rintro ⟨text, rfl, hn, hmax⟩
    rw [utf8Length_utf16, value_fitLength_eq_ok_iff, ← UInt64.toNat_inj, hn, toNat_length_utf8 h]
    exact ⟨rfl, hmax⟩

theorem utf8Length_all_widths :
    ([0x61, 0xE9, 0x4E2D, 0xD83D, 0xDE00] : List UInt16).length ≤ 0x3FFFFFFFFFFFFFFF ∧
      (utf8Length [0x61, 0xE9, 0x4E2D, 0xD83D, 0xDE00] ⟨10⟩).value = .ok 10 :=
  ⟨by decide, (utf8Length_eq_ok_iff (by decide) ⟨10⟩ 10).mpr
    ⟨['a', '\u00E9', '\u4E2D', Char.ofNat 0x1F600], by decide, by decide, by decide⟩⟩

end StrictUtf8
