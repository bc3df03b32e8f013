import StrictUtf8.Proofs.Bounds

/-! The stages of the length estimate against the general scan alone: same result, same events. The general
scan may begin behind any units below `0x800`; those that it leaves out count by themselves. -/

namespace StrictUtf8

def plainLength (units : List UInt16) (settings : LengthSettings) :
    Traced (Except LengthError UInt64) := do
  match ← extraFrom units 0 with
  | .error e => return .error e
  | .ok extra => fitLength (units.length.toUInt64 + extra) settings.maxLength

def wideBefore (units : List UInt16) (start : Nat) : Nat := (units.take start).countP (0x80 ≤ ·)

theorem utf8Length_eq_plainLength (units : List UInt16) (settings : LengthSettings) :
    utf8Length units settings = plainLength units settings := by
  rw [plainLength, ← extraBytes_eq]
  rfl

theorem extraFrom_past {units : List UInt16} {start : Nat} (h : units.length ≤ start) :
    extraFrom units start = pure (.ok 0) := Scan.run_finished (List.drop_eq_nil_of_le h)

theorem run_plus_start (units : List UInt16) (start : Nat) (x : UInt64) :
    ((Scan.start units start).plus x).run =
      (Scan.mk (units.drop start) (units.take start).length x).run := by
  rw [Scan.plus, Scan.start, UInt64.add_zero]
  rcases Nat.le_total start units.length with hle | hge
  · rw [List.length_take_of_le hle]
  -- Past the end there is nothing to scan, and no index to report.
  · have hnil := List.drop_eq_nil_of_le hge
    rw [Scan.run_finished hnil, Scan.run_finished hnil]

theorem extraFrom_zero {units : List UInt16} {start : Nat}
    (h : ∀ unit ∈ units.take start, unit < 0x800) :
    extraFrom units 0 =
      (·.map (UInt64.ofNat (wideBefore units start) + ·)) <$> extraFrom units start := by
  have hrun := Scan.run_narrow h (units.drop start) 0 0
  rw [List.take_append_drop, Nat.zero_add, UInt64.zero_add, ← run_plus_start, Scan.run_plus] at hrun
  exact hrun

theorem toNat_wideBefore_add {units : List UInt16} (hlen : units.length ≤ 0x3FFFFFFFFFFFFFFF)
    {start : Nat} {x : UInt64} (hx : (extraFrom units start).value = .ok x) :
    (UInt64.ofNat (wideBefore units start) + x).toNat = wideBefore units start + x.toNat := by
  have hcount : wideBefore units start ≤ units.length :=
    Nat.le_trans List.countP_le_length (List.length_take_le' start units)
  have hbound : x.toNat ≤ 2 * units.length := by
    rcases Nat.le_total start units.length with hle | hge
    · have hrest := extraFrom_le hlen hle hx
      omega
    · rw [extraFrom_past hge] at hx
      obtain rfl := Except.ok.inj hx
      exact Nat.zero_le _
  have hlt : wideBefore units start + x.toNat < UInt64.size := by
    apply lt_size_of_le hlen
    omega
  have htoNat : (UInt64.ofNat (wideBefore units start)).toNat = wideBefore units start :=
    UInt64.toNat_ofNat_of_lt' (Nat.lt_of_le_of_lt (Nat.le_add_right _ _) hlt)
  rw [Window.toNat_add_of_lt (htoNat.symm ▸ hlt), htoNat]

theorem utf8Length_staged (units : List UInt16) :
    (∀ settings, utf8Length units settings = plainLength units settings) ∧
    ∀ start, (∀ unit ∈ units.take start, unit < 0x800) →
      (extraFrom units 0).events = (extraFrom units start).events ∧
      (∀ e, (extraFrom units 0).value = .error e ↔ (extraFrom units start).value = .error e) ∧
      (∀ x, (extraFrom units start).value = .ok x →
        ∃ y, (extraFrom units 0).value = .ok y ∧ y = .ofNat (wideBefore units start) + x ∧
          (units.length ≤ 0x3FFFFFFFFFFFFFFF → y.toNat = wideBefore units start + x.toNat)) := by
  refine ⟨utf8Length_eq_plainLength units, ?_⟩
  intro start hstart
  have hzero := extraFrom_zero hstart
  refine ⟨?_, ?_, ?_⟩
  · rw [hzero, Traced.events_map]
  · intro e
    rw [hzero, Traced.value_map]
    cases (extraFrom units start).value with
    | error e' => exact Iff.rfl
    | ok x => exact ⟨nofun, nofun⟩
  · intro x hx
    refine ⟨_, ?_, rfl, fun hlen => toNat_wideBefore_add hlen hx⟩
    rw [hzero, Traced.value_map, hx]
    rfl

/-- Behind an ASCII unit and a narrow one, a pair and then half of one, which fails at its own index. -/
theorem utf8Length_staged_half :
    let units : List UInt16 := [0x61, 0xE9, 0xD83D, 0xDE00, 0xD83D]
    (∀ unit ∈ units.take 2, unit < 0x800) ∧
      (extraFrom units 2).value = .error (.unpairedSurrogate 4) ∧
      (extraFrom units 0).value = .error (.unpairedSurrogate 4) ∧
      (∀ unit ∈ (units.take 4).take 2, unit < 0x800) ∧ (units.take 4).length ≤ 0x3FFFFFFFFFFFFFFF ∧
      (extraFrom (units.take 4) 2).value = .ok 2 ∧
      ∃ y, (extraFrom (units.take 4) 0).value = .ok y ∧ y.toNat = wideBefore (units.take 4) 2 + 2 := by
  intro units
  have hnarrow : ∀ unit ∈ units.take 2, unit < 0x800 :=
    List.forall_mem_cons.mpr ⟨by decide, List.forall_mem_singleton.mpr (by decide)⟩
  have hfail : (extraFrom units 2).value = .error (.unpairedSurrogate 4) := by cbv
  obtain ⟨-, hfails, -⟩ := (utf8Length_staged units).2 2 hnarrow
  have hnarrow' : ∀ unit ∈ (units.take 4).take 2, unit < 0x800 := hnarrow
  have hlen : (units.take 4).length ≤ 0x3FFFFFFFFFFFFFFF := by decide
  have hrest : (extraFrom (units.take 4) 2).value = .ok 2 := by cbv
  obtain ⟨-, -, hfinds⟩ := (utf8Length_staged (units.take 4)).2 2 hnarrow'
  obtain ⟨y, hy, -, hexact⟩ := hfinds 2 hrest
  exact ⟨hnarrow, hfail, (hfails _).mpr hfail, hnarrow', hlen, hrest, y, hy, hexact hlen⟩

end StrictUtf8
