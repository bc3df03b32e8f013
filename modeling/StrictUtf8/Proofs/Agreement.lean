import StrictUtf8.CrossCheck
import StrictUtf8.Proofs.Decoders
import StrictUtf8.Proofs.Lengths
import StrictUtf8.Proofs.Texts
import StrictUtf8.Proofs.Windows

/-! The cross-check finds no disagreement: every entry point answers as the reference decoders do, on all
bytes and units of a size that memory can hold. -/

namespace StrictUtf8.CrossCheck
variable {σ α : Type}

theorem isText_iff (bytes : List UInt8) : isText bytes = true ↔ ∃ text, utf8 text = bytes :=
  isSome_decode?_iff bytes

theorem value_checkText (bytes : List UInt8) : (checkText bytes).value = isText bytes := by
  rw [Bool.eq_iff_iff, checkText_value_iff, wellFormed_iff_exists_utf8, isText_iff]

theorem certain_check [Feed σ Empty] [LawfulFeed σ] {s : σ} {bytes : List UInt8}
    (h : Reader.unread s = .ofBytes bytes) : certain (check s).1 = isText bytes := by
  have hview := congrArg Prod.fst (view_check s)
  rw [h] at hview
  change (check s).1 = _ at hview
  rw [Bool.eq_iff_iff, hview, certain_check_eq_true_iff, wellFormed_iff_exists_utf8, isText_iff]

theorem certain_cycled (input : Input) : certain (check input.cycled).1 = isText input.bytes :=
  certain_check rfl

theorem certain_checkUnbuffered (settings : BufferSettings) (bytes : List UInt8) :
    certain (checkUnbuffered settings (InMemory.mk bytes)).1 = isText bytes :=
  certain_check (s := Buffered.mk (Block.wrap settings.capacity.toNat (InMemory.mk bytes))) rfl

theorem value_checkWindow (bytes : List UInt8) (offset length : UInt64) :
    if offset.toNat + length.toNat < UInt64.size ∧ offset.toNat + length.toNat ≤ bytes.length then
      (checkWindow bytes offset length).value =
        .ok (isText ((bytes.drop offset.toNat).take length.toNat))
    else ∃ e, (checkWindow bytes offset length).value = .error e := by
  split
  next h =>
    rw [checkWindow_of_fits h.1 h.2, Traced.value_map, value_checkText]
  next h =>
    obtain ⟨e, he⟩ := checkWindow_of_not_fits h
    rw [he]
    exact ⟨e, rfl⟩

theorem value_utf8Length_utf16 {text : List Char} (h : (utf8 text).length ≤ 0x7FFFFFFFFFFFFFFF) :
    ∃ n, (utf8Length (utf16 text) {}).value = .ok n ∧ n.toNat = (utf8 text).length := by
  have hn : (UInt64.ofNat (utf8 text).length).toNat = (utf8 text).length :=
    UInt64.toNat_ofNat_of_lt' (Nat.lt_of_le_of_lt h (by decide))
  refine ⟨.ofNat (utf8 text).length, ?_, hn⟩
  rw [utf8Length_utf16, fitLength_of_le]
  rwa [UInt64.le_iff_toNat_le, hn]

theorem value_utf8Length {units : List UInt16} (h : units.length ≤ 0x2AAAAAAAAAAAAAAA) :
    match decodeUnits units with
    | .ok text => ∃ n, (utf8Length units {}).value = .ok n ∧ n.toNat = (utf8 text).length
    | .error i => (utf8Length units {}).value = .error (.unpairedSurrogate i) := by
  obtain ⟨text, tail, rfl, htail⟩ := exists_text_split units
  match tail with
  | [] =>
    have hle := extras_le text
    rw [List.append_nil] at h ⊢
    rw [decodeUnits_utf16]
    apply value_utf8Length_utf16
    rw [length_utf8]
    omega
  | unit :: rest =>
    rw [decodeUnits_lone text htail, utf8Length_lone text htail]

theorem value_utf8Length_lossy {bytes : List UInt8} (h : bytes.length ≤ 0x2AAAAAAAAAAAAAAA) :
    ∃ n, (utf8Length (utf16 (decodeLossy bytes)) {}).value = .ok n ∧
      n.toNat = (utf8 (decodeLossy bytes)).length := by
  have hle := length_decodeLossy_le bytes
  apply value_utf8Length_utf16
  omega

theorem value_lift_bind (x : Traced α) (k : α → ExceptT Disagreement Traced Unit) :
    ((liftM x : ExceptT Disagreement Traced α) >>= k).run.value = (k x.value).run.value := rfl

theorem value_require_bind {holds : Bool} (h : holds = true) (otherwise : Disagreement)
    (k : Unit → ExceptT Disagreement Traced Unit) :
    (require holds otherwise >>= k).run.value = (k ()).run.value := by
  rw [require, if_pos h]
  rfl

theorem value_require {holds : Bool} (h : holds = true) (otherwise : Disagreement) :
    (require holds otherwise).run.value = .ok () := by
  rw [require, if_pos h]
  rfl

theorem isLengthOf_of_exists {text : List Char} {answer : Except LengthError UInt64}
    (h : ∃ n, answer = .ok n ∧ n.toNat = (utf8 text).length) : isLengthOf text answer = true := by
  obtain ⟨n, rfl, hn⟩ := h
  exact beq_iff_eq.mpr hn

theorem lengthAgrees_value {units : List UInt16} (h : units.length ≤ 0x2AAAAAAAAAAAAAAA) :
    lengthAgrees units (utf8Length units {}).value = true := by
  have hvalue := value_utf8Length h
  unfold lengthAgrees
  cases hdecode : decodeUnits units with
  | ok text =>
    rw [hdecode] at hvalue
    exact isLengthOf_of_exists hvalue
  | error i =>
    rw [hdecode] at hvalue
    simp only [hvalue]
    exact beq_self_eq_true i

theorem windowAgrees_value (input : Input) :
    input.windowAgrees (checkWindow input.bytes input.offset input.length).value = true := by
  have hvalue := value_checkWindow input.bytes input.offset input.length
  have hfits : input.windowFits = true ↔ input.offset.toNat + input.length.toNat < UInt64.size ∧
      input.offset.toNat + input.length.toNat ≤ input.bytes.length := by
    rw [Input.windowFits, Bool.and_eq_true, decide_eq_true_eq, decide_eq_true_eq]
  split at hvalue
  next h =>
    rw [hvalue, Input.windowAgrees, hfits.mpr h]
    exact beq_self_eq_true (isText input.window)
  next h =>
    obtain ⟨e, he⟩ := hvalue
    have hnot : input.windowFits = false := Bool.eq_false_iff.mpr fun hwindow => h (hfits.mp hwindow)
    rw [he, Input.windowAgrees, hnot]
    rfl

theorem run_succeeds (input : Input) (hbytes : input.bytes.length ≤ 0x2AAAAAAAAAAAAAAA)
    (hunits : input.units.length ≤ 0x2AAAAAAAAAAAAAAA) :
    (run input).run.value = .ok () ∧
    (checkText input.bytes).value = isText input.bytes ∧
    certain (check input.cycled).1 = isText input.bytes ∧
    certain (checkUnbuffered input.bufferSettings (InMemory.mk input.bytes)).1 =
      isText input.bytes ∧
    (if input.offset.toNat + input.length.toNat < UInt64.size ∧
        input.offset.toNat + input.length.toNat ≤ input.bytes.length then
      (checkWindow input.bytes input.offset input.length).value = .ok (isText input.window)
    else ∃ e, (checkWindow input.bytes input.offset input.length).value = .error e) ∧
    (match decodeUnits input.units with
    | .ok text => ∃ n, (utf8Length input.units {}).value = .ok n ∧ n.toNat = (utf8 text).length
    | .error i => (utf8Length input.units {}).value = .error (.unpairedSurrogate i)) ∧
    ∃ n, (utf8Length (utf16 (decodeLossy input.bytes)) {}).value = .ok n ∧
      n.toNat = (utf8 (decodeLossy input.bytes)).length := by
  have hrun : (run input).run.value = .ok () := by
    rw [run, value_lift_bind, value_require_bind (beq_iff_eq.mpr (value_checkText input.bytes)),
      value_require_bind (beq_iff_eq.mpr (certain_cycled input)),
      value_require_bind (beq_iff_eq.mpr (certain_checkUnbuffered _ input.bytes)), value_lift_bind,
      value_require_bind (windowAgrees_value input), value_lift_bind,
      value_require_bind (lengthAgrees_value hunits), value_lift_bind]
    exact value_require (isLengthOf_of_exists (value_utf8Length_lossy hbytes)) _
  exact ⟨hrun, value_checkText input.bytes, certain_cycled input,
    certain_checkUnbuffered _ input.bytes, value_checkWindow _ _ _, value_utf8Length hunits,
    value_utf8Length_lossy hbytes⟩

/-- Torn bytes, reads of no size, a window past 64 bits and units with a lone surrogate. -/
theorem run_succeeds_torn :
    let input : Input := ⟨[0x61, 0xF0, 0x9F, 0x98, 0xE2, 0x82, 0xAC, 0xC3], [0, 2], 3,
      0xFFFFFFFFFFFFFFFF, [0x4E2D, 0xD83D, 0xDE00, 0xDC00]⟩
    input.bytes.length ≤ 0x2AAAAAAAAAAAAAAA ∧ input.units.length ≤ 0x2AAAAAAAAAAAAAAA ∧
      (run input).run.value = .ok () := by
  intro input
  have hbytes : input.bytes.length ≤ 0x2AAAAAAAAAAAAAAA := by decide
  have hunits : input.units.length ≤ 0x2AAAAAAAAAAAAAAA := by decide
  exact ⟨hbytes, hunits, (run_succeeds input hbytes hunits).1⟩

end StrictUtf8.CrossCheck
