import StrictUtf8.Proofs.Indexing
import StrictUtf8.Proofs.Unpaired
import StrictUtf8.Proofs.Windows

/-! The arithmetic of the length estimate. What a loop has added up is at most twice the units that it has
passed over, so no sum wraps around in 64 bits, and no index runs past the end. The only subtraction that
wraps is the one that is meant to. -/

namespace StrictUtf8
namespace Scan

def next? (s : Scan) : Option Scan :=
  match s.turn with
  | .moved next => some next
  | _ => none

inductive Reaches (step : Scan → Option Scan) (s : Scan) : Scan → Prop
  | start : Reaches step s s
  | turn {t next} : Reaches step s t → step t = some next → Reaches step s next

/-- A state of a loop over `units` that began at `first`. The index is one of a place in the units or at
their end, what is left is all from there on, and twice the units passed over bound what is added up. -/
structure Within (units : List UInt16) (first : Nat) (s : Scan) : Prop where
  first_le : first ≤ s.index
  index_le : s.index ≤ units.length
  rest_eq : s.rest = units.drop s.index
  extra_le : s.extra.toNat ≤ 2 * (s.index - first)

theorem turn_cases (s : Scan) :
    (s.rest = [] ∧ s.turn = .finished) ∨
    (∃ c rest, s.rest = Scalar.units c ++ rest ∧ s.turn =
      .moved ⟨rest, s.index + (Scalar.units c).length, s.extra + .ofNat (Scalar.extra c)⟩) ∨
    (∃ unit rest, s.rest = unit :: rest ∧ Lone s.rest ∧ s.turn = .unpaired unit) := by
  obtain ⟨units, index, extra⟩ := s
  by_cases hscalar : ∃ c rest, units = Scalar.units c ++ rest
  · obtain ⟨c, rest, rfl⟩ := hscalar
    exact .inr (.inl ⟨c, rest, rfl, turn_units c rest index extra⟩)
  · have hlone : Lone units := fun c rest hunits => hscalar ⟨c, rest, hunits⟩
    match units with
    | [] => exact .inl ⟨rfl, rfl⟩
    | unit :: rest => exact .inr (.inr ⟨unit, rest, rfl, hlone, turn_lone hlone⟩)

theorem turn_moved {s next : Scan} (h : s.turn = .moved next) :
    ∃ c rest, s.rest = Scalar.units c ++ rest ∧
      next = ⟨rest, s.index + (Scalar.units c).length, s.extra + .ofNat (Scalar.extra c)⟩ := by
  rcases turn_cases s with ⟨-, hturn⟩ | ⟨c, rest, hrest, hturn⟩ | ⟨unit, rest, -, -, hturn⟩
  · cases hturn.symm.trans h
  · exact ⟨c, rest, hrest, (Turn.moved.inj (hturn.symm.trans h)).symm⟩
  · cases hturn.symm.trans h

theorem turn_finished {s : Scan} (h : s.turn = .finished) : s.rest = [] := by
  rcases turn_cases s with ⟨hrest, -⟩ | ⟨c, rest, -, hturn⟩ | ⟨unit, rest, -, -, hturn⟩
  · exact hrest
  · cases hturn.symm.trans h
  · cases hturn.symm.trans h

theorem next?_eq_some_iff {s next : Scan} : s.next? = some next ↔ s.turn = .moved next := by
  unfold next?
  cases s.turn with
  | finished | unpaired unit => exact ⟨nofun, nofun⟩
  | moved t => rw [Option.some.injEq, Turn.moved.injEq]

theorem next?_of_narrowTurn {s next : Scan} (h : s.narrowTurn = some next) : s.next? = some next :=
  next?_eq_some_iff.mpr (turn_of_narrowTurn h)

theorem Reaches.mono {step step' : Scan → Option Scan} {s t : Scan}
    (hstep : ∀ {t next}, step t = some next → step' t = some next) (h : Reaches step s t) :
    Reaches step' s t := by
  induction h with
  | start => exact .start
  | turn _ hturn ih => exact .turn ih (hstep hturn)

theorem Reaches.head {step : Scan → Option Scan} {s next t : Scan} (h : step s = some next)
    (ht : Reaches step next t) : Reaches step s t := by
  induction ht with
  | start => exact .turn .start h
  | turn _ hturn ih => exact .turn ih hturn

theorem toNat_ofNat_extra (c : Char) : (UInt64.ofNat (Scalar.extra c)).toNat = Scalar.extra c := by
  have hle := Scalar.extra_le c
  exact UInt64.toNat_ofNat_of_lt' (by rw [UInt64.size]; omega)

theorem narrowExtra_le (unit : UInt16) : (narrowExtra unit).toNat ≤ 2 := by
  rw [toNat_narrowExtra]
  omega

section Lengths
variable {units : List UInt16} {first : Nat}

theorem within_start (h : first ≤ units.length) : Within units first (start units first) where
  first_le := Nat.le_refl first
  index_le := h
  rest_eq := rfl
  extra_le := Nat.zero_le _

variable (hlen : units.length ≤ 0x3FFFFFFFFFFFFFFF)
include hlen

theorem Within.add_lt {s : Scan} (h : Within units first s) {x : UInt64} (hx : x.toNat ≤ 2) :
    s.extra.toNat + x.toNat < UInt64.size := by
  have hextra := h.extra_le
  have hindex := h.index_le
  apply lt_size_of_le hlen
  omega

theorem Within.next {s next : Scan} (h : Within units first s) (hnext : s.next? = some next) :
    Within units first next := by
  obtain ⟨c, rest, hrest, rfl⟩ := turn_moved (next?_eq_some_iff.mp hnext)
  have hpos := List.length_pos_iff.mpr (Scalar.units_ne_nil c)
  have hle := Scalar.extra_le c
  have htwo : (UInt64.ofNat (Scalar.extra c)).toNat ≤ 2 := (toNat_ofNat_extra c).symm ▸ hle
  have hdrop : units.drop s.index = Scalar.units c ++ rest := h.rest_eq.symm.trans hrest
  have hcount := congrArg List.length hdrop
  rw [List.length_drop, List.length_append] at hcount
  have hfirst := h.first_le
  have hextra := h.extra_le
  refine ⟨Nat.le_add_right_of_le hfirst, ?_, ?_, ?_⟩
  · show s.index + (Scalar.units c).length ≤ units.length
    omega
  · show rest = units.drop (s.index + (Scalar.units c).length)
    rw [← List.drop_drop, hdrop, List.drop_left]
  · show (s.extra + .ofNat (Scalar.extra c)).toNat ≤ 2 * (s.index + (Scalar.units c).length - first)
    rw [Window.toNat_add_of_lt (h.add_lt hlen htwo), toNat_ofNat_extra]
    omega

theorem Reaches.within {s t : Scan} (hs : Within units first s) (h : Reaches next? s t) :
    Within units first t := by
  induction h with
  | start => exact hs
  | turn _ hturn ih => exact ih.next hlen hturn

end Lengths

theorem reaches_skipNarrow (s : Scan) : Reaches narrowTurn s s.skipNarrow := by
  fun_induction skipNarrow s with
  | case1 s next h ih => exact ih.head h
  | case2 s h => exact .start

theorem reaches_end {s : Scan} {x : UInt64} (h : s.run.value = .ok x) :
    ∃ t, Reaches next? s t ∧ t.rest = [] ∧ t.extra = x := by
  fun_induction run s with
  | case1 s hturn => exact ⟨s, .start, turn_finished hturn, Except.ok.inj h⟩
  | case2 s next hturn ih =>
    obtain ⟨t, ht, hend⟩ := ih h
    exact ⟨t, ht.head (next?_eq_some_iff.mpr hturn), hend⟩
  | case3 s unit hturn => cases h

namespace Tested
open Indexed (get part)

def sum (x y : UInt64) : Except OutOfRange UInt64 :=
  if x.toNat + y.toNat < UInt64.size then .ok (x + y)
  else .error ⟨x.toNat + y.toNat, UInt64.size⟩

def advance (index count : Nat) : Except OutOfRange Nat :=
  if index + count < UInt64.size then .ok (index + count)
  else .error ⟨index + count, UInt64.size⟩

def stateAt (units : List UInt16) (index : Nat) (extra : UInt64) : Except OutOfRange Scan := do
  let rest ← part units index units.length
  return ⟨rest, index, extra⟩

def narrowTurn (units : List UInt16) (s : Scan) : Except OutOfRange (Option Scan) :=
  if units.length ≤ s.index then .ok none
  else do
    let unit ← get units s.index
    if unit < 0x800 then
      let extra ← sum s.extra (narrowExtra unit)
      let index ← advance s.index 1
      return some (← stateAt units index extra)
    else return none

/-- The general turn with every index, bound and sum tested. The sum comes before the test for a partner,
and the second unit of a pair is passed over by a step of its own. -/
def turn (units : List UInt16) (s : Scan) : Except OutOfRange Turn :=
  if units.length ≤ s.index then .ok .finished
  else do
    let unit ← get units s.index
    if unit < 0x800 then
      let extra ← sum s.extra (narrowExtra unit)
      let index ← advance s.index 1
      return .moved (← stateAt units index extra)
    else
      let extra ← sum s.extra 2
      if isSurrogate unit then
        let tail ← part units s.index units.length
        if startsPair tail then
          let second ← advance s.index 1
          let index ← advance second 1
          return .moved (← stateAt units index extra)
        else return .unpaired unit
      else
        let index ← advance s.index 1
        return .moved (← stateAt units index extra)

variable {units : List UInt16} {first : Nat}

theorem get_of_lt {i : Nat} (h : i < units.length) : get units i = .ok units[i] := by
  rw [Indexed.get, List.getElem?_eq_getElem h]

theorem stateAt_of_le {index : Nat} (h : index ≤ units.length) (extra : UInt64) :
    stateAt units index extra = .ok ⟨units.drop index, index, extra⟩ := by
  rw [stateAt, Indexed.part_back h]
  rfl

section
variable (hlen : units.length ≤ 0x3FFFFFFFFFFFFFFF)
include hlen

theorem sum_of_within {s : Scan} (h : Within units first s) {x : UInt64} (hx : x.toNat ≤ 2) :
    sum s.extra x = .ok (s.extra + x) := if_pos (h.add_lt hlen hx)

theorem advance_of_le {index count : Nat} (h : index + count ≤ units.length) :
    advance index count = .ok (index + count) := by
  have hlt : index + count < UInt64.size := by
    apply lt_size_of_le hlen
    omega
  exact if_pos hlt

theorem turn_eq {s : Scan} (h : Within units first s) : turn units s = .ok s.turn := by
  obtain ⟨rest, index, extra⟩ := s
  have hrest : rest = units.drop index := h.rest_eq
  rcases Nat.lt_or_ge index units.length with hlt | hge
  · have hget := get_of_lt hlt
    have hle : index + 1 ≤ units.length := hlt
    have hone := advance_of_le hlen hle
    have hnarrowSum := sum_of_within hlen h (narrowExtra_le units[index])
    have hwideSum := sum_of_within (x := 2) hlen h (Nat.le_refl 2)
    have htail := Indexed.part_back (Nat.le_of_lt hlt)
    rw [List.drop_eq_getElem_cons hlt] at hrest htail
    rw [turn, if_neg (Nat.not_le_of_lt hlt), Scan.turn, hrest]
    simp only [hget, hone, hnarrowSum, hwideSum, htail, stateAt_of_le hle, bind,
      Except.bind, pure, Except.pure]
    split
    · rfl
    split
    next hsurrogate =>
      rw [hsurrogate]
      split
      next hpair =>
        -- A pair has its second unit, so the index stays within the units behind it.
        have hsecond : index + 1 + 1 ≤ units.length := by
          apply Nat.lt_of_not_le
          intro hend
          rw [List.drop_eq_nil_of_le hend] at hpair
          cases hpair
        simp only [advance_of_le hlen hsecond, stateAt_of_le hsecond]
        rw [List.drop_drop]
        rfl
      next => rfl
    next hsurrogate =>
      rw [Bool.not_eq_true] at hsurrogate
      rw [hsurrogate]
      rfl
  · rw [turn, if_pos hge, hrest, List.drop_eq_nil_of_le hge]
    rfl

theorem narrowTurn_eq {s : Scan} (h : Within units first s) :
    narrowTurn units s = .ok s.narrowTurn := by
  obtain ⟨rest, index, extra⟩ := s
  have hrest : rest = units.drop index := h.rest_eq
  rcases Nat.lt_or_ge index units.length with hlt | hge
  · have hle : index + 1 ≤ units.length := hlt
    rw [List.drop_eq_getElem_cons hlt] at hrest
    rw [narrowTurn, if_neg (Nat.not_le_of_lt hlt), Scan.narrowTurn, hrest]
    simp only [get_of_lt hlt, advance_of_le hlen hle, stateAt_of_le hle,
      sum_of_within hlen h (narrowExtra_le units[index]), bind, Except.bind, pure, Except.pure]
    split <;> rfl
  · rw [narrowTurn, if_pos hge, hrest, List.drop_eq_nil_of_le hge]
    rfl

end
end Tested
end Scan

namespace Scalar

theorem extra_eq_zero_iff (c : Char) : extra c = 0 ↔ ∀ unit ∈ units c, unit ≤ 0x7F := by
  rcases Nat.lt_or_ge c.toNat 0x10000 with hlt | hge
  · simp only [units_of_lt hlt, List.forall_mem_singleton, UInt16.le_iff_toNat_le, toNat_toUInt16 hlt,
      UInt16.reduceToNat]
    unfold extra
    grind
  · have hhigh := isHighSurrogate_supplement c
    rw [isHighSurrogate_iff] at hhigh
    rw [extra_of_ge (by omega), units_of_ge hge]
    simp only [List.forall_mem_cons, UInt16.le_iff_toNat_le, UInt16.reduceToNat]
    omega

theorem extra_eq_twice_iff (c : Char) : extra c = 2 * (units c).length ↔
    ∀ unit ∈ units c, 0x800 ≤ unit ∧ isSurrogate unit = false := by
  rcases Nat.lt_or_ge c.toNat 0x10000 with hlt | hge
  · simp only [units_of_lt hlt, List.forall_mem_singleton, UInt16.le_iff_toNat_le, toNat_toUInt16 hlt,
      UInt16.reduceToNat, List.length_singleton, not_surrogate_of_lt hlt, and_true]
    unfold extra
    grind
  · have hhigh := isSurrogate_of_high (isHighSurrogate_supplement c)
    rw [extra_of_ge (by omega), units_of_ge hge, List.forall_mem_cons, hhigh]
    refine iff_of_false ?_ ?_
    · show 2 ≠ 4
      decide
    · rintro ⟨⟨-, hfalse⟩, -⟩
      cases hfalse

end Scalar

theorem extras_eq_zero_iff (text : List Char) :
    extras text = 0 ↔ ∀ unit ∈ utf16 text, unit ≤ 0x7F := by
  induction text with
  | nil => exact ⟨fun _ => nofun, fun _ => rfl⟩
  | cons c text ih =>
    rw [utf16, List.flatMap_cons, ← utf16, List.forall_mem_append, ← ih, ← Scalar.extra_eq_zero_iff,
      extras, Nat.add_eq_zero_iff]

theorem extras_eq_twice_iff (text : List Char) : extras text = 2 * (utf16 text).length ↔
    ∀ unit ∈ utf16 text, 0x800 ≤ unit ∧ isSurrogate unit = false := by
  induction text with
  | nil => exact ⟨fun _ => nofun, fun _ => rfl⟩
  | cons c text ih =>
    have hc := Scalar.extra_le c
    have hpos := List.length_pos_iff.mpr (Scalar.units_ne_nil c)
    have htext := extras_le text
    rw [utf16, List.flatMap_cons, ← utf16, List.forall_mem_append, ← ih, ← Scalar.extra_eq_twice_iff,
      extras, List.length_append]
    omega

section Sums
variable {units : List UInt16} (hlen : units.length ≤ 0x3FFFFFFFFFFFFFFF)
include hlen

theorem extraFrom_le {first : Nat} (hfirst : first ≤ units.length) {x : UInt64}
    (hx : (extraFrom units first).value = .ok x) : x.toNat ≤ 2 * (units.length - first) := by
  obtain ⟨t, ht, -, rfl⟩ := Scan.reaches_end hx
  have hwithin := ht.within hlen (Scan.within_start hfirst)
  have hindex := hwithin.index_le
  have hextra := hwithin.extra_le
  omega

theorem sum_handover {first : Nat} {s : Scan} (hs : Scan.Within units first s) {x : UInt64}
    (hx : (extraFrom units s.index).value = .ok x) :
    Scan.Tested.sum s.extra x = .ok (s.extra + x) := by
  have hindex := hs.index_le
  have hextra := hs.extra_le
  have hrest := extraFrom_le hlen hindex hx
  have hlt : s.extra.toNat + x.toNat < UInt64.size := by
    apply lt_size_of_le hlen
    omega
  exact if_pos hlt

theorem extraBytes_le {x : UInt64} (hx : (extraBytes units).value = .ok x) :
    x.toNat ≤ 2 * units.length := by
  rw [extraBytes_eq] at hx
  exact extraFrom_le hlen (Nat.zero_le _) hx

theorem toNat_length : units.length.toUInt64.toNat = units.length := by
  have hlt : units.length < UInt64.size := by
    apply lt_size_of_le hlen
    omega
  exact UInt64.toNat_ofNat_of_lt' hlt

theorem sum_length {x : UInt64} (hx : x.toNat ≤ 2 * units.length) :
    Scan.Tested.sum units.length.toUInt64 x = .ok (units.length.toUInt64 + x) ∧
      (units.length.toUInt64 + x).toNat = units.length + x.toNat := by
  have hcount := toNat_length hlen
  have hlt : units.length.toUInt64.toNat + x.toNat < UInt64.size := by
    apply lt_size_of_le hlen
    omega
  constructor
  · exact if_pos hlt
  · rw [Window.toNat_add_of_lt hlt, hcount]

end Sums

theorem text_range {text : List Char} (hlen : (utf16 text).length ≤ 0x3FFFFFFFFFFFFFFF) :
    ∃ x n, (extraBytes (utf16 text)).value = .ok x ∧
      n = ((utf16 text).length.toUInt64 + x).toNat ∧
      (utf16 text).length ≤ n ∧ n ≤ 3 * (utf16 text).length ∧
      (n = (utf16 text).length ↔ ∀ unit ∈ utf16 text, unit ≤ 0x7F) ∧
      (n = 3 * (utf16 text).length ↔ ∀ unit ∈ utf16 text, 0x800 ≤ unit ∧ isSurrogate unit = false) := by
  have hvalue : (extraBytes (utf16 text)).value = .ok (.ofNat (extras text)) := by
    rw [extraBytes_utf16]
    rfl
  have hbound := extras_le text
  have hlt : extras text < UInt64.size := by
    apply lt_size_of_le hlen
    omega
  have hextras : (UInt64.ofNat (extras text)).toNat = extras text := UInt64.toNat_ofNat_of_lt' hlt
  have hsum := (sum_length hlen (extraBytes_le hlen hvalue)).2
  rw [hextras] at hsum
  refine ⟨_, _, hvalue, rfl, ?_, ?_, ?_, ?_⟩
  · omega
  · omega
  · rw [hsum, ← extras_eq_zero_iff]
    omega
  · rw [hsum, ← extras_eq_twice_iff]
    omega

theorem extraBytes_exact {units : List UInt16} (hlen : units.length ≤ 0x3FFFFFFFFFFFFFFF) :
    let first := units.findIdx (0x7F < ·)
    let narrow := (Scan.start units first).skipNarrow
    (∀ s, Scan.Reaches Scan.narrowTurn (Scan.start units first) s →
      Scan.Within units first s ∧ Scan.Tested.narrowTurn units s = .ok s.narrowTurn) ∧
    (∀ start ≤ units.length, ∀ s, Scan.Reaches Scan.next? (Scan.start units start) s →
      Scan.Within units start s ∧ Scan.Tested.turn units s = .ok s.turn) ∧
    (∀ x, (extraFrom units narrow.index).value = .ok x →
      Scan.Tested.sum narrow.extra x = .ok (narrow.extra + x)) ∧
    (∀ x, (extraBytes units).value = .ok x →
      x.toNat ≤ 2 * units.length ∧
        Scan.Tested.sum units.length.toUInt64 x = .ok (units.length.toUInt64 + x) ∧
        (units.length.toUInt64 + x).toNat = units.length + x.toNat) ∧
    ((∀ i, ¬ Unpaired units i) →
      ∃ x n, (extraBytes units).value = .ok x ∧ n = (units.length.toUInt64 + x).toNat ∧
        units.length ≤ n ∧ n ≤ 3 * units.length ∧
        (n = units.length ↔ ∀ unit ∈ units, unit ≤ 0x7F) ∧
        (n = 3 * units.length ↔ ∀ unit ∈ units, 0x800 ≤ unit ∧ isSurrogate unit = false)) := by
  intro first narrow
  have hfirst : first ≤ units.length := List.findIdx_le_length
  have hnarrow {s : Scan} (hs : Scan.Reaches Scan.narrowTurn (Scan.start units first) s) :
      Scan.Within units first s :=
    (hs.mono Scan.next?_of_narrowTurn).within hlen (Scan.within_start hfirst)
  refine ⟨?_, ?_, ?_, ?_, ?_⟩
  · intro s hs
    exact ⟨hnarrow hs, Scan.Tested.narrowTurn_eq hlen (hnarrow hs)⟩
  · intro start hstart s hs
    have hwithin := hs.within hlen (Scan.within_start hstart)
    exact ⟨hwithin, Scan.Tested.turn_eq hlen hwithin⟩
  · intro x hx
    have hreached : Scan.Reaches Scan.narrowTurn (Scan.start units first) narrow :=
      Scan.reaches_skipNarrow _
    exact sum_handover hlen (hnarrow hreached) hx
  · intro x hx
    have hle := extraBytes_le hlen hx
    exact ⟨hle, sum_length hlen hle⟩
  · intro hnone
    obtain ⟨text, rfl⟩ := (forall_not_unpaired_iff units).mp hnone
    exact text_range hlen

theorem extraBytes_exact_last_pair :
    let units : List UInt16 := [0x61, 0xE9, 0xD83D, 0xDE00]
    units.length ≤ 0x3FFFFFFFFFFFFFFF ∧
      Scan.Reaches Scan.narrowTurn (Scan.start units 1) ⟨[0xD83D, 0xDE00], 2, 1⟩ ∧
      Scan.Within units 1 ⟨[0xD83D, 0xDE00], 2, 1⟩ ∧
      Scan.Reaches Scan.next? (Scan.start units 2) ⟨[], 4, 2⟩ ∧ Scan.Within units 2 ⟨[], 4, 2⟩ ∧
      (extraFrom units 2).value = .ok 2 ∧ Scan.Tested.sum 1 2 = .ok (1 + 2) ∧
      (extraBytes units).value = .ok 3 ∧
      (units.length.toUInt64 + 3).toNat = units.length + (3 : UInt64).toNat ∧
      (∀ i, ¬ Unpaired units i) ∧
      ∃ x n, (extraBytes units).value = .ok x ∧ n = (units.length.toUInt64 + x).toNat ∧
        units.length ≤ n ∧ n ≤ 3 * units.length := by
  intro units
  have hlen : units.length ≤ 0x3FFFFFFFFFFFFFFF := by decide
  obtain ⟨hnarrow, hgeneral, hhandover, hsum, hpaired⟩ := extraBytes_exact hlen
  have hfirst : Scan.Reaches Scan.narrowTurn (Scan.start units 1) ⟨[0xD83D, 0xDE00], 2, 1⟩ :=
    .turn .start (by decide)
  have hlast : Scan.Reaches Scan.next? (Scan.start units 2) ⟨[], 4, 2⟩ := .turn .start (by decide)
  have hrest : (extraFrom units 2).value = .ok 2 := by cbv
  have hextra : (extraBytes units).value = .ok 3 := by cbv
  have hnone : ∀ i, ¬ Unpaired units i :=
    not_unpaired_of_text ['a', '\u00E9', Char.ofNat 0x1F600]
  obtain ⟨x, n, hx, hn, hlow, hhigh, -⟩ := hpaired hnone
  have hstate : (Scan.start units (units.findIdx (0x7F < ·))).skipNarrow =
      ⟨[0xD83D, 0xDE00], 2, 1⟩ := by cbv
  rw [hstate] at hhandover
  exact ⟨hlen, hfirst, (hnarrow _ hfirst).1, hlast, (hgeneral 2 (by decide) _ hlast).1, hrest,
    hhandover 2 hrest, hextra, (hsum 3 hextra).2.2, hnone, x, n, hx, hn, hlow, hhigh⟩

end StrictUtf8
