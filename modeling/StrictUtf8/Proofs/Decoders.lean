import StrictUtf8.Proofs.Units

/-! The reference decoders against the encoders. Reading takes the encoding of a scalar value off the front
of bytes and reads nothing else, so decoding inverts encoding; decoding units stops at the first surrogate
without a partner. -/

namespace StrictUtf8
namespace Scalar

def joined (value : Nat) (trailing : List UInt8) : Nat :=
  trailing.foldl (fun value byte => value * 64 + (byte.toNat - 0x80)) value

theorem joined_nil (value : Nat) : joined value [] = value := List.foldl_nil

theorem joined_cons (value : Nat) (byte : UInt8) (trailing : List UInt8) :
    joined value (byte :: trailing) = joined (value * 64 + (byte.toNat - 0x80)) trailing :=
  List.foldl_cons ..

theorem extend?_eq_some_iff {n value result : Nat} {bytes rest : List UInt8} :
    extend? n value bytes = some (result, rest) ↔
      ∃ trailing, trailing.length = n ∧ (∀ byte ∈ trailing, Tail byte) ∧
        bytes = trailing ++ rest ∧ result = joined value trailing := by
  induction n generalizing value bytes with
  | zero =>
    rw [extend?, Option.some.injEq, Prod.mk.injEq]
    constructor
    · rintro ⟨rfl, rfl⟩
      exact ⟨[], rfl, List.forall_mem_nil _, rfl, (joined_nil _).symm⟩
    · rintro ⟨trailing, hlen, -, rfl, rfl⟩
      obtain rfl := List.length_eq_zero_iff.mp hlen
      exact ⟨(joined_nil value).symm, rfl⟩
  | succ n ih =>
    match bytes with
    | [] =>
      refine iff_of_false ?_ ?_
      · intro h
        cases h
      · rintro ⟨trailing, hlen, -, hbytes, -⟩
        obtain ⟨rfl, -⟩ := List.append_eq_nil_iff.mp hbytes.symm
        cases hlen
    | byte :: bytes =>
      have htail : (0x80 ≤ byte ∧ byte < 0xC0) ↔ Tail byte := by
        unfold Tail Between
        grind
      rw [extend?]
      constructor
      · intro h
        split at h
        next hbyte =>
          obtain ⟨trailing, hlen, hall, rfl, rfl⟩ := ih.mp h
          exact ⟨byte :: trailing, congrArg (· + 1) hlen,
            List.forall_mem_cons.mpr ⟨htail.mp hbyte, hall⟩, rfl, (joined_cons ..).symm⟩
        next => cases h
      · rintro ⟨trailing, hlen, hall, hbytes, hresult⟩
        cases trailing with
        | nil => cases hlen
        | cons b trailing =>
          obtain ⟨rfl, rfl⟩ := List.cons.inj hbytes
          rw [joined_cons] at hresult
          obtain ⟨hb, hall⟩ := List.forall_mem_cons.mp hall
          rw [if_pos (htail.mpr hb)]
          exact ih.mpr ⟨trailing, Nat.succ.inj hlen, hall, rfl, hresult⟩

theorem read?_cons_eq_some_iff {lead : UInt8} {bytes rest : List UInt8} {c : Char} :
    read? (lead :: bytes) = some (c, rest) ↔
      ∃ form trailing, form? lead = some form ∧ trailing.length = form.following ∧
        (∀ byte ∈ trailing, Tail byte) ∧ bytes = trailing ++ rest ∧
        form.least ≤ joined form.payload trailing ∧
        (joined form.payload trailing).isValidChar ∧
        c = Char.ofNat (joined form.payload trailing) := by
  simp only [read?, Option.bind_eq_bind, Option.bind_eq_some_iff]
  constructor
  · rintro ⟨form, hform, ⟨value, rest'⟩, hextend, h⟩
    split at h
    next hvalue =>
      obtain ⟨rfl, rfl⟩ := Prod.mk.inj (Option.some.inj h)
      obtain ⟨trailing, hlen, hall, rfl, rfl⟩ := extend?_eq_some_iff.mp hextend
      exact ⟨form, trailing, hform, hlen, hall, rfl, hvalue.1, hvalue.2, rfl⟩
    next => cases h
  · rintro ⟨form, trailing, hform, hlen, hall, rfl, hleast, hvalid, rfl⟩
    refine ⟨form, hform, (_, rest), extend?_eq_some_iff.mpr ⟨trailing, hlen, hall, rfl, rfl⟩, ?_⟩
    exact if_pos ⟨hleast, hvalid⟩

theorem form?_eq (byte : UInt8) : form? byte =
    if byte.toNat < 0x80 then some ⟨0, byte.toNat, 0⟩
    else if byte.toNat < 0xC0 then none
    else if byte.toNat < 0xE0 then some ⟨1, byte.toNat - 0xC0, 0x80⟩
    else if byte.toNat < 0xF0 then some ⟨2, byte.toNat - 0xE0, 0x800⟩
    else if byte.toNat < 0xF8 then some ⟨3, byte.toNat - 0xF0, 0x10000⟩
    else none := rfl

theorem isValidChar_iff (value : Nat) :
    value.isValidChar ↔ value < 0xD800 ∨ (0xDFFF < value ∧ value < 0x110000) := Iff.rfl

theorem read?_of_form {lead : UInt8} (trailing : List UInt8) (payload : Nat) {least : Nat} {c : Char}
    (hform : form? lead = some ⟨trailing.length, payload, least⟩)
    (hall : ∀ byte ∈ trailing, Tail byte) (hvalue : joined payload trailing = c.toNat)
    (hleast : least ≤ c.toNat) (rest : List UInt8) :
    read? (lead :: (trailing ++ rest)) = some (c, rest) := by
  refine read?_cons_eq_some_iff.mpr ⟨_, trailing, hform, rfl, hall, rfl, ?_, ?_, ?_⟩
  · rwa [hvalue]
  · rw [hvalue]
    exact c.valid
  · rw [hvalue, Char.ofNat_toNat]

theorem toNat_trailing (n : Nat) : (UInt8.ofNat (n % 0x40 + 0x80)).toNat = n % 0x40 + 0x80 := by
  rw [UInt8.toNat_ofNat']
  omega

theorem tail_trailing (n : Nat) : Tail (.ofNat (n % 0x40 + 0x80)) := by
  rw [Tail, between_iff, toNat_trailing]
  simp only [UInt8.reduceToNat]
  omega

theorem read?_encode (c : Char) (rest : List UInt8) :
    read? (String.utf8EncodeChar c ++ rest) = some (c, rest) := by
  have hvalid := toNat_valid c
  rw [encode_eq]
  split
  next =>
    have hlead : (UInt8.ofNat c.toNat).toNat = c.toNat := by
      rw [UInt8.toNat_ofNat']
      omega
    refine read?_of_form [] c.toNat ?_ (List.forall_mem_nil _) (joined_nil _) (Nat.zero_le _) rest
    rw [form?_eq, hlead, if_pos (by omega)]
    rfl
  split
  next =>
    have hlead : (UInt8.ofNat (c.toNat / 0x40 % 0x20 + 0xC0)).toNat = c.toNat / 0x40 + 0xC0 := by
      rw [UInt8.toNat_ofNat']
      omega
    have hleast : 0x80 ≤ c.toNat := by omega
    refine read?_of_form [_] (c.toNat / 0x40) ?_ ?_ ?_ hleast rest
    · rw [form?_eq, hlead, if_neg (by omega), if_neg (by omega), if_pos (by omega), Nat.add_sub_cancel]
      rfl
    · simp only [List.forall_mem_cons, tail_trailing, true_and]
      exact List.forall_mem_nil _
    · simp only [joined_cons, joined_nil, toNat_trailing]
      omega
  split
  next =>
    have hlead : (UInt8.ofNat (c.toNat / 0x1000 % 0x10 + 0xE0)).toNat = c.toNat / 0x1000 + 0xE0 := by
      rw [UInt8.toNat_ofNat']
      omega
    have hleast : 0x800 ≤ c.toNat := by omega
    refine read?_of_form [_, _] (c.toNat / 0x1000) ?_ ?_ ?_ hleast rest
    · rw [form?_eq, hlead, if_neg (by omega), if_neg (by omega), if_neg (by omega), if_pos (by omega),
        Nat.add_sub_cancel]
      rfl
    · simp only [List.forall_mem_cons, tail_trailing, true_and]
      exact List.forall_mem_nil _
    · simp only [joined_cons, joined_nil, toNat_trailing]
      omega
  next =>
    have hlead : (UInt8.ofNat (c.toNat / 0x40000 % 0x08 + 0xF0)).toNat = c.toNat / 0x40000 + 0xF0 := by
      rw [UInt8.toNat_ofNat']
      omega
    have hleast : 0x10000 ≤ c.toNat := by omega
    refine read?_of_form [_, _, _] (c.toNat / 0x40000) ?_ ?_ ?_ hleast rest
    · rw [form?_eq, hlead, if_neg (by omega), if_neg (by omega), if_neg (by omega), if_neg (by omega),
        if_pos (by omega), Nat.add_sub_cancel]
      rfl
    · simp only [List.forall_mem_cons, tail_trailing, true_and]
      exact List.forall_mem_nil _
    · simp only [joined_cons, joined_nil, toNat_trailing]
      omega

/-- What is read is a row of the table: a value below the least one of its form would have a lead or a
second byte that no row has, and so would a surrogate or a value above `10FFFF`. -/
theorem charSequence_of_read? {bytes rest : List UInt8} {c : Char} (h : read? bytes = some (c, rest)) :
    ∃ s, CharSequence s ∧ bytes = s ++ rest := by
  match bytes with
  | [] => cases h
  | lead :: bytes =>
    obtain ⟨form, trailing, hform, hlen, hall, rfl, hleast, hvalid, -⟩ := read?_cons_eq_some_iff.mp h
    refine ⟨lead :: trailing, ?_, rfl⟩
    rw [isValidChar_iff] at hvalid
    rw [form?_eq] at hform
    split at hform
    next hlead =>
      cases hform
      obtain rfl := List.length_eq_zero_iff.mp hlen
      rw [CharSequence.one_iff, UInt8.le_iff_toNat_le]
      exact Nat.le_of_lt_succ hlead
    split at hform
    next => cases hform
    split at hform
    next =>
      cases hform
      obtain ⟨b, rfl⟩ := List.length_eq_one_iff.mp hlen
      simp only [List.forall_mem_singleton, Tail, between_iff, UInt8.reduceToNat] at hall
      simp only [joined_cons, joined_nil] at hleast
      simp only [CharSequence.two_iff, Tail, between_iff, UInt8.reduceToNat]
      omega
    split at hform
    next =>
      cases hform
      obtain _ | ⟨b, _ | ⟨d, _ | _⟩⟩ := trailing <;> cases hlen
      simp only [List.forall_mem_cons, Tail, between_iff, UInt8.reduceToNat] at hall
      simp only [joined_cons, joined_nil] at hleast hvalid
      simp only [CharSequence.three_iff, Tail, between_iff, UInt8.le_iff_toNat_le, ← UInt8.toNat_inj,
        UInt8.reduceToNat]
      omega
    split at hform
    next =>
      cases hform
      obtain _ | ⟨b, _ | ⟨d, _ | ⟨e, _ | _⟩⟩⟩ := trailing <;> cases hlen
      simp only [List.forall_mem_cons, Tail, between_iff, UInt8.reduceToNat] at hall
      simp only [joined_cons, joined_nil] at hleast hvalid
      simp only [CharSequence.four_iff, Tail, between_iff, UInt8.le_iff_toNat_le, ← UInt8.toNat_inj,
        UInt8.reduceToNat]
      omega
    next => cases hform

theorem read?_eq_some_iff (bytes rest : List UInt8) (c : Char) :
    read? bytes = some (c, rest) ↔ bytes = String.utf8EncodeChar c ++ rest := by
  constructor
  · intro h
    obtain ⟨s, hs, rfl⟩ := charSequence_of_read? h
    obtain ⟨d, rfl⟩ := (charSequence_iff s).mp hs
    rw [read?_encode] at h
    obtain ⟨rfl, -⟩ := Prod.mk.inj (Option.some.inj h)
    rfl
  · rintro rfl
    exact read?_encode c rest

theorem read?_of_stuck {bytes : List UInt8} (h : Stuck bytes) : read? bytes = none := by
  cases hread : read? bytes with
  | none => rfl
  | some out =>
    obtain ⟨c, rest⟩ := out
    obtain ⟨s, hs, hbytes⟩ := charSequence_of_read? hread
    exact (h s rest hs hbytes).elim

end Scalar

theorem decodeFrom_of_read {bytes rest : List UInt8} {c : Char} (h : Scalar.read? bytes = some (c, rest))
    (done : List Char) : decodeFrom done bytes = decodeFrom (c :: done) rest := by
  rw [decodeFrom]
  split
  next d rest' hread =>
    obtain ⟨rfl, rfl⟩ := Prod.mk.inj (Option.some.inj (hread.symm.trans h))
    rfl
  next hread => cases hread.symm.trans h

theorem decodeFrom_of_stuck {bytes : List UInt8} (h : Stuck bytes) (done : List Char) :
    decodeFrom done bytes = if bytes = [] then some done.reverse else none := by
  rw [decodeFrom]
  split
  next d rest hread => cases hread.symm.trans (Scalar.read?_of_stuck h)
  next => rfl

theorem decodeFrom_utf8 (text done : List Char) (tail : List UInt8) :
    decodeFrom done (utf8 text ++ tail) = decodeFrom (text.reverse ++ done) tail := by
  induction text generalizing done with
  | nil => rfl
  | cons c text ih =>
    rw [utf8, List.flatMap_cons, ← utf8, List.append_assoc, decodeFrom_of_read (Scalar.read?_encode c _),
      ih, List.reverse_cons, List.append_assoc]
    rfl

theorem decode?_utf8 (text : List Char) : decode? (utf8 text) = some text := by
  have hdecode := decodeFrom_utf8 text [] []
  have hstuck : Stuck [] := by
    intro s rest hs hnil
    exact hs.ne_nil (List.append_eq_nil_iff.mp hnil.symm).1
  rw [List.append_nil, List.append_nil, decodeFrom_of_stuck hstuck, List.reverse_reverse] at hdecode
  exact hdecode

theorem decode?_of_stuck {good tail : List UInt8} (hgood : WellFormed good) (htail : Stuck tail)
    (hne : tail ≠ []) : decode? (good ++ tail) = none := by
  obtain ⟨text, rfl⟩ := (wellFormed_iff_exists_utf8 good).mp hgood
  rw [decode?, decodeFrom_utf8, decodeFrom_of_stuck htail, if_neg hne]

theorem decode?_eq_some_iff (bytes : List UInt8) (text : List Char) :
    decode? bytes = some text ↔ utf8 text = bytes := by
  constructor
  · intro h
    obtain ⟨good, tail, rfl, hgood, htail⟩ := exists_split bytes
    by_cases hnil : tail = []
    · subst hnil
      obtain ⟨start, rfl⟩ := (wellFormed_iff_exists_utf8 good).mp hgood
      rw [List.append_nil, decode?_utf8] at h
      rw [List.append_nil, Option.some.inj h]
    · rw [decode?_of_stuck hgood htail hnil] at h
      cases h
  · rintro rfl
    exact decode?_utf8 text

theorem isSome_decode?_iff (bytes : List UInt8) :
    (decode? bytes).isSome = true ↔ ∃ text, utf8 text = bytes := by
  rw [Option.isSome_iff_exists]
  exact exists_congr (decode?_eq_some_iff bytes)

theorem utf8_singleton (c : Char) : utf8 [c] = String.utf8EncodeChar c := List.flatMap_singleton ..

theorem length_utf8_reverse_cons (c : Char) (done : List Char) :
    (utf8 (c :: done).reverse).length =
      (utf8 done.reverse).length + (String.utf8EncodeChar c).length := by
  rw [List.reverse_cons, utf8_append, List.length_append, utf8_singleton]

/-- A replacement takes three bytes and stands for at least one. -/
theorem length_decodeLossyFrom_le (done : List Char) (bytes : List UInt8) :
    (utf8 (decodeLossyFrom done bytes)).length ≤ (utf8 done.reverse).length + 3 * bytes.length := by
  fun_induction decodeLossyFrom done bytes with
  | case1 done bytes c rest hread ih =>
    obtain rfl := (Scalar.read?_eq_some_iff bytes rest c).mp hread
    rw [length_utf8_reverse_cons] at ih
    rw [List.length_append]
    omega
  | case2 done hread => exact Nat.le_add_right _ _
  | case3 done bytes hread hne ih =>
    have hcount := Scalar.illFormedCount_pos bytes
    have hpos := List.length_pos_iff.mpr hne
    have hthree : (String.utf8EncodeChar Scalar.replacement).length = 3 := rfl
    rw [length_utf8_reverse_cons, hthree, List.length_drop] at ih
    omega

theorem length_decodeLossy_le (bytes : List UInt8) :
    (utf8 (decodeLossy bytes)).length ≤ 3 * bytes.length := by
  have hle := length_decodeLossyFrom_le [] bytes
  have hnil : (utf8 ([] : List Char).reverse).length = 0 := rfl
  rwa [hnil, Nat.zero_add] at hle

theorem Scalar.ofPair_supplement {c : Char} (h : 0x10000 ≤ c.toNat) :
    ofPair (0xD800 + supplement c / 0x400).toUInt16 (0xDC00 + supplement c % 0x400).toUInt16 = c := by
  have hlt := supplement_lt c
  have hvalue : 0x10000 + (0xD800 + supplement c / 0x400 - 0xD800) * 0x400 +
      (0xDC00 + supplement c % 0x400 - 0xDC00) = c.toNat := by
    unfold supplement
    omega
  rw [ofPair, toNat_toUInt16 (by omega), toNat_toUInt16 (by omega), hvalue, Char.ofNat_toNat]

theorem decodeUnitsFrom_units (index : Nat) (done : List Char) (c : Char) (rest : List UInt16) :
    decodeUnitsFrom index done (Scalar.units c ++ rest) =
      decodeUnitsFrom (index + (Scalar.units c).length) (c :: done) rest := by
  rcases Nat.lt_or_ge c.toNat 0x10000 with hlt | hge
  · have hunit : isSurrogate c.toNat.toUInt16 = false := Scalar.not_surrogate_of_lt hlt
    rw [Scalar.units_of_lt hlt, List.singleton_append, decodeUnitsFrom.eq_def]
    simp only [hunit, Scalar.toNat_toUInt16 hlt, Char.ofNat_toNat]
    rfl
  · have hhigh := Scalar.isHighSurrogate_supplement c
    have hlow := Scalar.isLowSurrogate_supplement c
    have hunit := Scalar.isSurrogate_of_high hhigh
    rw [Scalar.units_of_ge hge, List.cons_append, List.singleton_append, decodeUnitsFrom.eq_def]
    simp only [hunit, hhigh, hlow, Bool.and_true, if_true, Scalar.ofPair_supplement hge]
    rfl

theorem decodeUnitsFrom_utf16 (index : Nat) (text done : List Char) (tail : List UInt16) :
    decodeUnitsFrom index done (utf16 text ++ tail) =
      decodeUnitsFrom (index + (utf16 text).length) (text.reverse ++ done) tail := by
  induction text generalizing index done with
  | nil => rfl
  | cons c text ih =>
    rw [utf16, List.flatMap_cons, ← utf16, List.append_assoc, decodeUnitsFrom_units, ih,
      List.length_append, Nat.add_assoc, List.reverse_cons, List.append_assoc]
    rfl

theorem decodeUnits_utf16 (text : List Char) : decodeUnits (utf16 text) = .ok text := by
  have hdecode := decodeUnitsFrom_utf16 0 text [] []
  rw [List.append_nil, List.append_nil, decodeUnitsFrom, List.reverse_reverse] at hdecode
  exact hdecode

theorem decodeUnits_lone (text : List Char) {unit : UInt16} {rest : List UInt16}
    (h : Lone (unit :: rest)) :
    decodeUnits (utf16 text ++ unit :: rest) = .error (utf16 text).length := by
  rw [decodeUnits, decodeUnitsFrom_utf16, decodeUnitsFrom.eq_def, Nat.zero_add]
  simp only [h.isSurrogate, if_true]
  match rest with
  | [] => rfl
  | low :: rest =>
    have hpair := h.not_startsPair
    rw [startsPair] at hpair
    simp only [hpair]
    rfl

theorem utf16_injective {s t : List Char} (h : utf16 s = utf16 t) : s = t := by
  have hdecode := congrArg decodeUnits h
  rw [decodeUnits_utf16, decodeUnits_utf16] at hdecode
  exact Except.ok.inj hdecode

end StrictUtf8
