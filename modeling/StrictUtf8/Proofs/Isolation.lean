import StrictUtf8.Proofs.Indexing
import StrictUtf8.Proofs.Windows

/-! The check through a window sees the content of the window and nothing else. A window that does not lie
within the bytes is refused by the first bound that it breaks. -/

namespace StrictUtf8
open Sequence

def windowContent (bytes : List UInt8) (offset length : UInt64) : List UInt8 :=
  (bytes.drop offset.toNat).take length.toNat

namespace Window

/-- The first bound that a window breaks in a buffer of `size` bytes: its end fits no word, or else its
start, or else its end is past the end of the buffer. -/
inductive Breaks (offset length : UInt64) (size : Nat) : WindowError → Prop
  | sum : UInt64.size ≤ offset.toNat + length.toNat →
      Breaks offset length size (.sumOverflow offset length)
  | start : offset.toNat + length.toNat < UInt64.size → size < offset.toNat →
      Breaks offset length size (.startPastEnd offset.toNat size)
  | stop : offset.toNat + length.toNat < UInt64.size → offset.toNat ≤ size →
      size < offset.toNat + length.toNat →
      Breaks offset length size (.stopPastEnd (offset.toNat + length.toNat) size)

variable {offset length : UInt64} {size : Nat} {e : WindowError}

theorem exists_breaks (h : size < offset.toNat + length.toNat) :
    ∃ e, Breaks offset length size e := by
  rcases Nat.lt_or_ge (offset.toNat + length.toNat) UInt64.size with hsum | hsum
  · rcases Nat.lt_or_ge size offset.toNat with hstart | hstart
    · exact ⟨_, .start hsum hstart⟩
    · exact ⟨_, .stop hsum hstart h⟩
  · exact ⟨_, .sum hsum⟩

theorem ofOffset_of_breaks (h : Breaks offset length size e) :
    ofOffset offset length size = .error e := by
  rw [ofOffset_eq]
  cases h with
  | sum hsum => exact if_pos hsum
  | start hsum hstart => rw [if_neg (Nat.not_le_of_lt hsum), if_pos hstart]
  | stop hsum hstart hstop =>
    rw [if_neg (Nat.not_le_of_lt hsum), if_neg (Nat.not_lt_of_le hstart), dif_pos hstop]

end Window
open Window

variable {bytes : List UInt8}

theorem checkWindow_of_breaks {offset length : UInt64} {e : WindowError}
    (h : Breaks offset length bytes.length e) :
    checkWindow bytes offset length = pure (.error e) := by
  rw [checkWindow, ofOffset_of_breaks h]

theorem checkWindow_of_le {offset length : UInt64} (hsize : bytes.length < UInt64.size)
    (hstop : offset.toNat + length.toNat ≤ bytes.length) :
    checkWindow bytes offset length = .ok <$> checkText (windowContent bytes offset length) :=
  checkWindow_of_fits (Nat.lt_of_le_of_lt hstop hsize) hstop

theorem value_checkWindow_eq_error_iff {offset length : UInt64} {e : WindowError}
    (hsize : bytes.length < UInt64.size) :
    (checkWindow bytes offset length).value = .error e ↔ Breaks offset length bytes.length e := by
  constructor
  · intro hvalue
    rcases Nat.lt_or_ge bytes.length (offset.toNat + length.toNat) with hlt | hle
    · obtain ⟨e', he'⟩ := exists_breaks hlt
      rw [checkWindow_of_breaks he', Traced.value_pure] at hvalue
      exact Except.error.inj hvalue ▸ he'
    · rw [checkWindow_of_le hsize hle, Traced.value_map] at hvalue
      cases hvalue
  · intro he
    rw [checkWindow_of_breaks he, Traced.value_pure]

theorem checkWindow_isolated (hsize : bytes.length < UInt64.size) (offset length : UInt64) :
    ((∃ verdict, (checkWindow bytes offset length).value = .ok verdict) ↔
      offset.toNat + length.toNat ≤ bytes.length) ∧
    (offset.toNat + length.toNat ≤ bytes.length →
      (checkWindow bytes offset length).value =
          .ok (checkText (windowContent bytes offset length)).value ∧
        (checkWindow bytes offset length).events =
          (checkText (windowContent bytes offset length)).events ∧
        ∀ (other : List UInt8) (offset' length' : UInt64), other.length < UInt64.size →
          offset'.toNat + length'.toNat ≤ other.length →
          windowContent other offset' length' = windowContent bytes offset length →
          checkWindow other offset' length' = checkWindow bytes offset length) ∧
    (bytes.length < offset.toNat + length.toNat → (checkWindow bytes offset length).events = []) ∧
    (∀ e, (checkWindow bytes offset length).value = .error e ↔
      Breaks offset length bytes.length e) ∧
    (∀ start stop, (checkWindow bytes offset length).value ≠ .error (.stopBeforeStart start stop)) ∧
    Indexed.checkWindow bytes offset length = .ok (checkWindow bytes offset length) ∧
    ∀ lead, 0 < width lead ∧ width lead ≤ 4 := by
  refine ⟨?_, ?_, ?_, fun e => value_checkWindow_eq_error_iff hsize, ?_,
    Indexed.checkWindow_eq bytes offset length, fun lead => ⟨width_pos lead, width_le_four lead⟩⟩
  · constructor
    · rintro ⟨verdict, hverdict⟩
      refine Nat.le_of_not_lt fun hlt => ?_
      obtain ⟨e, he⟩ := exists_breaks hlt
      rw [checkWindow_of_breaks he] at hverdict
      cases hverdict
    · intro hle
      rw [checkWindow_of_le hsize hle]
      exact ⟨_, rfl⟩
  · intro hle
    rw [checkWindow_of_le hsize hle]
    refine ⟨rfl, Traced.events_map _ _, ?_⟩
    intro other offset' length' hsize' hle' hcontent
    rw [checkWindow_of_le hsize' hle', hcontent]
  · intro hlt
    obtain ⟨e, he⟩ := exists_breaks hlt
    rw [checkWindow_of_breaks he, Traced.events_pure]
  · intro start stop hvalue
    cases (value_checkWindow_eq_error_iff hsize).mp hvalue

/-- The content of these windows ends inside `€`. What completes the sign in one buffer and breaks it in the
other makes no difference. A sum past 64 bits is named before a start past the end. -/
theorem checkWindow_isolated_torn :
    let bytes : List UInt8 := [0x61, 0xE2, 0x82, 0xAC]
    let other : List UInt8 := [0xFF, 0xC3, 0x61, 0xE2, 0x82, 0x41]
    bytes.length < UInt64.size ∧ other.length < UInt64.size ∧
      windowContent other 2 3 = windowContent bytes 0 3 ∧
      checkWindow other 2 3 = checkWindow bytes 0 3 ∧
      (checkWindow bytes 5 0xFFFFFFFFFFFFFFFF).value =
        .error (.sumOverflow 5 0xFFFFFFFFFFFFFFFF) ∧
      (checkWindow bytes 5 0).value = .error (.startPastEnd 5 4) := by
  intro bytes other
  have hsize : bytes.length < UInt64.size := by decide
  have hother : other.length < UInt64.size := by decide
  have hcontent : windowContent other 2 3 = windowContent bytes 0 3 := by decide
  obtain ⟨-, hfits, -⟩ := checkWindow_isolated hsize 0 3
  obtain ⟨-, -, hsame⟩ := hfits (by decide)
  refine ⟨hsize, hother, hcontent, hsame other 2 3 hother (by decide) hcontent, ?_, ?_⟩
  · exact ((checkWindow_isolated hsize _ _).2.2.2.1 _).mpr (.sum (by decide))
  · exact ((checkWindow_isolated hsize _ _).2.2.2.1 _).mpr (.start (by decide) (by decide))

end StrictUtf8
