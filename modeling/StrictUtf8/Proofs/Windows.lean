import StrictUtf8.Text

/-! Windows by the plain sum of their offset and length: when they are valid, which error comes first, and
what a check through them looks at. -/

namespace StrictUtf8
namespace Window

theorem toNat_add_of_lt {a b : UInt64} (h : a.toNat + b.toNat < UInt64.size) :
    (a + b).toNat = a.toNat + b.toNat := by
  rw [UInt64.toNat_add]
  exact Nat.mod_eq_of_lt h

theorem checkedAdd_of_lt {a b : UInt64} (h : a.toNat + b.toNat < UInt64.size) :
    checkedAdd a b = some (a + b) := by
  have hsum := toNat_add_of_lt h
  refine if_neg ?_
  rw [UInt64.lt_iff_toNat_lt]
  omega

theorem checkedAdd_of_le {a b : UInt64} (h : UInt64.size ≤ a.toNat + b.toNat) :
    checkedAdd a b = none := by
  have hb := b.toNat_lt_size
  have hwrapped : (a + b).toNat = a.toNat + b.toNat - UInt64.size := by
    have ha := a.toNat_lt_size
    rw [UInt64.toNat_add]
    change (a.toNat + b.toNat) % UInt64.size = _
    rw [Nat.mod_eq_sub_mod h, Nat.mod_eq_of_lt (by omega)]
  refine if_pos ?_
  rw [UInt64.lt_iff_toNat_lt]
  omega

theorem ofOffset_eq (offset length : UInt64) (size : Nat) : ofOffset offset length size =
    if UInt64.size ≤ offset.toNat + length.toNat then .error (.sumOverflow offset length)
    else if size < offset.toNat then .error (.startPastEnd offset.toNat size)
    else if h : size < offset.toNat + length.toNat then
      .error (.stopPastEnd (offset.toNat + length.toNat) size)
    else .ok ⟨offset.toNat, offset.toNat + length.toNat, Nat.le_add_right _ _, Nat.le_of_not_lt h⟩ := by
  rw [ofOffset]
  rcases Nat.lt_or_ge (offset.toNat + length.toNat) UInt64.size with hlt | hge
  · have hstop : ¬ offset.toNat + length.toNat < offset.toNat :=
      Nat.not_lt_of_le (Nat.le_add_right _ _)
    rw [checkedAdd_of_lt hlt, if_neg (Nat.not_le_of_lt hlt)]
    simp only [ofBounds, toNat_add_of_lt hlt, hstop]
    split
    · rfl
    split
    · rfl
    · rfl
  · rw [checkedAdd_of_le hge, if_pos hge]

theorem slice_eq {α : Type} (xs : List α) (w : Window xs.length) :
    slice xs w = (xs.drop w.start).take (w.stop - w.start) := List.drop_take

end Window

theorem checkWindow_of_fits {bytes : List UInt8} {offset length : UInt64}
    (hsum : offset.toNat + length.toNat < UInt64.size)
    (hstop : offset.toNat + length.toNat ≤ bytes.length) :
    checkWindow bytes offset length =
      .ok <$> checkText ((bytes.drop offset.toNat).take length.toNat) := by
  have hstart : offset.toNat ≤ bytes.length := Nat.le_trans (Nat.le_add_right _ _) hstop
  rw [checkWindow, Window.ofOffset_eq, if_neg (Nat.not_le_of_lt hsum), if_neg (Nat.not_lt_of_le hstart),
    dif_neg (Nat.not_lt_of_le hstop)]
  dsimp only
  rw [Window.slice_eq, Nat.add_sub_cancel_left]

theorem checkWindow_of_not_fits {bytes : List UInt8} {offset length : UInt64}
    (h : ¬ (offset.toNat + length.toNat < UInt64.size ∧ offset.toNat + length.toNat ≤ bytes.length)) :
    ∃ e, checkWindow bytes offset length = pure (.error e) := by
  rw [checkWindow, Window.ofOffset_eq]
  split
  next e he => exact ⟨e, rfl⟩
  next window hwindow =>
    split at hwindow
    next => cases hwindow
    split at hwindow
    next => cases hwindow
    split at hwindow
    next => cases hwindow
    next hsum _ hstop => exact (h ⟨Nat.lt_of_not_le hsum, Nat.le_of_not_lt hstop⟩).elim

end StrictUtf8
