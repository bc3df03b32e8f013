import StrictUtf8.Proofs.Texts
import StrictUtf8.Proofs.Windows

/-! Where a text can be cut. Trailing bytes stand after the first byte of a sequence and nowhere else, so
the byte behind a cut tells whether the cut falls between two sequences. -/

namespace StrictUtf8
open Sequence

/-- The bytes do not begin inside a sequence: the first one, if there is one, is no trailing byte. -/
def Aligned (bytes : List UInt8) : Prop := ∀ b, bytes.head? = some b → ¬ Tail b

theorem aligned_nil : Aligned [] := by
  intro b hb
  cases hb

theorem aligned_cons_iff {b : UInt8} {rest : List UInt8} : Aligned (b :: rest) ↔ ¬ Tail b := by
  constructor
  · intro h
    exact h b rfl
  · intro h c hc
    exact Option.some.inj hc ▸ h

theorem Between.tail {lo hi b : UInt8} (h : Between lo hi b) (hlo : 0x80 ≤ lo) (hhi : hi ≤ 0xBF) :
    Tail b := ⟨UInt8.le_trans hlo h.1, UInt8.le_trans h.2 hhi⟩

namespace CharSequence

theorem tail_of_mem {lead : UInt8} {trailing : List UInt8} (h : CharSequence (lead :: trailing)) :
    ∀ b ∈ trailing, Tail b := by
  cases h with
  | ascii => exact List.forall_mem_nil Tail
  | two _ hb => exact List.forall_mem_singleton.mpr hb
  | e0 hb hc | ed hb hc =>
    rw [List.forall_mem_cons, List.forall_mem_singleton]
    exact ⟨hb.tail (by decide) (by decide), hc⟩
  | e1 _ hb hc | ee _ hb hc =>
    rw [List.forall_mem_cons, List.forall_mem_singleton]
    exact ⟨hb, hc⟩
  | f0 hb hc hd | f4 hb hc hd =>
    rw [List.forall_mem_cons, List.forall_mem_cons, List.forall_mem_singleton]
    exact ⟨hb.tail (by decide) (by decide), hc, hd⟩
  | f1 _ hb hc hd =>
    rw [List.forall_mem_cons, List.forall_mem_cons, List.forall_mem_singleton]
    exact ⟨hb, hc, hd⟩

theorem not_tail_lead {lead : UInt8} {trailing : List UInt8} (h : CharSequence (lead :: trailing)) :
    ¬ Tail lead := by
  intro htail
  rcases (cons_iff lead trailing).mp h with ⟨hascii, -⟩ | ⟨-, hlen, hcompletes⟩
  · have hle : (0x80 : UInt8) ≤ 0x7F := UInt8.le_trans htail.1 ((isAscii_iff lead).mp hascii)
    exact absurd hle (by decide)
  · have hlt : lead < 0xC2 := UInt8.lt_of_le_of_lt htail.2 (by decide)
    have hwidth : width lead = 1 := (width_eq_one_iff lead).mpr (.inl hlt)
    obtain rfl : trailing = [] := List.length_eq_zero_iff.mp (Nat.succ.inj (hlen.trans hwidth))
    cases hcompletes

end CharSequence

namespace WellFormed

theorem aligned {bytes : List UInt8} (h : WellFormed bytes) : Aligned bytes := by
  cases h with
  | nil => exact aligned_nil
  | @append s rest hs _ =>
    match s with
    | [] => exact (hs.ne_nil rfl).elim
    | lead :: trailing => exact aligned_cons_iff.mpr hs.not_tail_lead

theorem of_append {xs ys : List UInt8} (h : WellFormed (xs ++ ys)) (hys : Aligned ys) :
    WellFormed xs ∧ WellFormed ys := by
  generalize hbytes : xs ++ ys = bytes at h
  induction h generalizing xs with
  | nil =>
    obtain ⟨rfl, rfl⟩ := List.append_eq_nil_iff.mp hbytes
    exact ⟨.nil, .nil⟩
  | @append s rest hs hrest ih =>
    -- The cut falls in the first sequence, and then at one of its ends, or it falls behind it.
    rcases List.append_eq_append_iff.mp hbytes with ⟨behind, rfl, rfl⟩ | ⟨between, rfl, rfl⟩
    · match xs, behind with
      | [], behind => exact ⟨.nil, .append hs hrest⟩
      | x :: xs, [] => exact ⟨of_sequence (by rwa [List.append_nil] at hs), hrest⟩
      | x :: xs, b :: behind =>
        have htail : Tail b := hs.tail_of_mem b (List.mem_append_right xs (List.mem_cons_self ..))
        exact (aligned_cons_iff.mp hys htail).elim
    · obtain ⟨hbetween, hys'⟩ := ih rfl
      exact ⟨.append hs hbetween, hys'⟩

theorem of_append_right {xs ys : List UInt8} (h : WellFormed (xs ++ ys)) (hys : WellFormed ys) :
    WellFormed xs := (h.of_append hys.aligned).1

theorem middle_iff {xs ys zs : List UInt8} (h : WellFormed (xs ++ (ys ++ zs))) (hne : ys ≠ []) :
    WellFormed ys ↔ Aligned (ys ++ zs) ∧ Aligned zs := by
  constructor
  · intro hys
    have hstart : Aligned (ys ++ zs) := by
      obtain ⟨b, rest, rfl⟩ := List.exists_cons_of_ne_nil hne
      exact aligned_cons_iff.mpr (aligned_cons_iff.mp hys.aligned)
    have hrest := (h.of_append hstart).2
    exact ⟨hstart, (hys.append_iff.mp hrest).aligned⟩
  · rintro ⟨hstart, hzs⟩
    have hrest := (h.of_append hstart).2
    exact (hrest.of_append hzs).1

end WellFormed

def LeadAt (bytes : List UInt8) (n : Nat) : Prop := ∃ b, bytes[n]? = some b ∧ ¬ Tail b

/-- Position `n` stands between two characters of the text that the bytes encode, or at one of its ends. -/
def CharBoundary (bytes : List UInt8) (n : Nat) : Prop :=
  ∃ before after : List Char, utf8 (before ++ after) = bytes ∧ (utf8 before).length = n

theorem aligned_drop_iff {bytes : List UInt8} {n : Nat} (hn : n ≤ bytes.length) :
    Aligned (bytes.drop n) ↔ n = bytes.length ∨ LeadAt bytes n := by
  rcases Nat.lt_or_eq_of_le hn with hlt | rfl
  · have hget : bytes[n]? = some bytes[n] := List.getElem?_eq_getElem hlt
    rw [List.drop_eq_getElem_cons hlt, aligned_cons_iff]
    constructor
    · intro h
      exact .inr ⟨bytes[n], hget, h⟩
    · rintro (heq | ⟨b, hb, h⟩)
      · exact (Nat.ne_of_lt hlt heq).elim
      · exact Option.some.inj (hget.symm.trans hb) ▸ h
  · rw [List.drop_length]
    exact iff_of_true aligned_nil (.inl rfl)

namespace WellFormed

theorem boundary_iff {bytes : List UInt8} {n : Nat} (h : WellFormed bytes) (hn : n ≤ bytes.length) :
    CharBoundary bytes n ↔ Aligned (bytes.drop n) := by
  constructor
  · rintro ⟨before, after, rfl, rfl⟩
    rw [utf8_append, List.drop_left]
    exact (wellFormed_utf8 after).aligned
  · intro haligned
    rw [← List.take_append_drop n bytes] at h
    obtain ⟨hfront, hback⟩ := h.of_append haligned
    obtain ⟨before, hbefore⟩ := (wellFormed_iff_exists_utf8 _).mp hfront
    obtain ⟨after, hafter⟩ := (wellFormed_iff_exists_utf8 _).mp hback
    refine ⟨before, after, ?_, ?_⟩
    · rw [utf8_append, hbefore, hafter, List.take_append_drop]
    · rw [hbefore, List.length_take_of_le hn]

theorem cut_iff {bytes : List UInt8} {n : Nat} (h : WellFormed bytes) (hn : n ≤ bytes.length) :
    (WellFormed (bytes.take n) ↔ CharBoundary bytes n) ∧
      (WellFormed (bytes.drop n) ↔ CharBoundary bytes n) := by
  have hparts : WellFormed (bytes.take n ++ bytes.drop n) := by rwa [List.take_append_drop]
  rw [h.boundary_iff hn]
  refine ⟨⟨fun hfront => ?_, fun haligned => (hparts.of_append haligned).1⟩,
    ⟨aligned, fun haligned => (hparts.of_append haligned).2⟩⟩
  exact (hfront.append_iff.mp hparts).aligned

theorem window_iff {bytes : List UInt8} {start n : Nat} (h : WellFormed bytes) (hpos : 0 < n)
    (hstop : start + n ≤ bytes.length) :
    WellFormed ((bytes.drop start).take n) ↔
      LeadAt bytes start ∧ (start + n = bytes.length ∨ LeadAt bytes (start + n)) := by
  have hstart : start < bytes.length := Nat.lt_of_lt_of_le (Nat.lt_add_of_pos_right hpos) hstop
  have hcontent : (bytes.drop start).take n ≠ [] := by
    apply List.ne_nil_of_length_pos
    rw [List.length_take, List.length_drop]
    omega
  have hrest : (bytes.drop start).take n ++ bytes.drop (start + n) = bytes.drop start := by
    rw [← List.drop_drop, List.take_append_drop]
  have hparts := h
  rw [← List.take_append_drop start bytes, ← hrest] at hparts
  rw [hparts.middle_iff hcontent, hrest, aligned_drop_iff hstop, aligned_drop_iff (Nat.le_of_lt hstart),
    or_iff_right (Nat.ne_of_lt hstart)]

end WellFormed

theorem value_checkWindow_eq_true_iff {bytes : List UInt8} {offset length : UInt64}
    (hsize : bytes.length < UInt64.size) (hstop : offset.toNat + length.toNat ≤ bytes.length) :
    (checkWindow bytes offset length).value = .ok true ↔
      WellFormed ((bytes.drop offset.toNat).take length.toNat) := by
  have hsum := Nat.lt_of_le_of_lt hstop hsize
  rw [checkWindow_of_fits hsum hstop, Traced.value_map, Except.ok.injEq, checkText_value_iff]

theorem checkWindow_front {bytes : List UInt8} {cut : UInt64} (hsize : bytes.length < UInt64.size)
    (hcut : cut.toNat ≤ bytes.length) :
    checkWindow bytes 0 cut = .ok <$> checkText (bytes.take cut.toNat) := by
  have hstop : (0 : UInt64).toNat + cut.toNat ≤ bytes.length := by rwa [UInt64.toNat_zero, Nat.zero_add]
  rw [checkWindow_of_fits (Nat.lt_of_le_of_lt hstop hsize) hstop, UInt64.toNat_zero, List.drop_zero]

theorem checkWindow_back {bytes : List UInt8} {cut rest : UInt64} (hsize : bytes.length < UInt64.size)
    (hcut : cut.toNat + rest.toNat = bytes.length) :
    checkWindow bytes cut rest = .ok <$> checkText (bytes.drop cut.toNat) := by
  have hlength : (bytes.drop cut.toNat).length ≤ rest.toNat := by
    rw [List.length_drop]
    omega
  rw [checkWindow_of_fits (hcut ▸ hsize) (Nat.le_of_eq hcut), List.take_of_length_le hlength]

theorem checkWindow_of_text {bytes : List UInt8} (htext : (checkText bytes).value = true)
    (hsize : bytes.length < UInt64.size) :
    (∀ offset length : UInt64, 0 < length → offset.toNat + length.toNat ≤ bytes.length →
      ((checkWindow bytes offset length).value = .ok true ↔
        LeadAt bytes offset.toNat ∧
          (offset.toNat + length.toNat = bytes.length ∨
            LeadAt bytes (offset.toNat + length.toNat)))) ∧
    (∀ cut rest : UInt64, cut.toNat + rest.toNat = bytes.length →
      ∃ accepted, (checkWindow bytes 0 cut).value = .ok accepted ∧
        (checkWindow bytes cut rest).value = .ok accepted ∧
        (accepted = true ↔ CharBoundary bytes cut.toNat)) := by
  rw [checkText_value_iff] at htext
  constructor
  · intro offset length hpos hstop
    rw [value_checkWindow_eq_true_iff hsize hstop]
    exact htext.window_iff (UInt64.lt_iff_toNat_lt.mp hpos) hstop
  · intro cut rest hcut
    have hle : cut.toNat ≤ bytes.length := hcut ▸ Nat.le_add_right _ _
    obtain ⟨hfront, hback⟩ := htext.cut_iff hle
    have hsame : (checkText (bytes.take cut.toNat)).value = (checkText (bytes.drop cut.toNat)).value := by
      rw [Bool.eq_iff_iff, checkText_value_iff, checkText_value_iff, hfront, hback]
    refine ⟨(checkText (bytes.drop cut.toNat)).value, ?_, ?_, ?_⟩
    · rw [checkWindow_front hsize hle, Traced.value_map, hsame]
    · rw [checkWindow_back hsize hcut, Traced.value_map]
    · rw [checkText_value_iff, hback]

theorem checkWindow_of_accented_text :
    let bytes := utf8 ['a', 'é', '€']
    (checkText bytes).value = true ∧ bytes.length < UInt64.size ∧
      (checkWindow bytes 1 2).value = .ok true ∧ (checkWindow bytes 1 3).value ≠ .ok true ∧
      ¬ CharBoundary bytes 4 ∧ (checkWindow bytes 0 4).value = .ok false ∧
      (checkWindow bytes 4 2).value = .ok false := by
  intro bytes
  have htext : (checkText bytes).value = true := (checkText_value_iff bytes).mpr (wellFormed_utf8 _)
  have hsize : bytes.length < UInt64.size := by decide
  obtain ⟨hwindow, hcut⟩ := checkWindow_of_text htext hsize
  have hinside : ¬ CharBoundary bytes 4 := by
    rw [(wellFormed_utf8 _).boundary_iff (by decide)]
    intro h
    exact h 0x82 rfl (by decide)
  obtain ⟨accepted, hfront, hback, haccepted⟩ := hcut 4 2 rfl
  obtain rfl : accepted = false := Bool.eq_false_iff.mpr fun h => hinside (haccepted.mp h)
  refine ⟨htext, hsize, ?_, ?_, hinside, hfront, hback⟩
  · exact (hwindow 1 2 (by decide) (by decide)).mpr
      ⟨⟨0xC3, rfl, by decide⟩, .inr ⟨0xE2, rfl, by decide⟩⟩
  · rw [ne_eq, hwindow 1 3 (by decide) (by decide)]
    rintro ⟨-, heq | ⟨next, hnext, hlead⟩⟩
    · exact absurd heq (by decide)
    · obtain rfl := Option.some.inj hnext
      exact hlead (by decide)

end StrictUtf8
