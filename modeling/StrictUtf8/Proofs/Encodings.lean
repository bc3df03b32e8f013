import StrictUtf8.Proofs.Prefixes
import StrictUtf8.Scalar.Basic

/-! The table of well-formed sequences holds exactly the encodings of scalar values, so the well-formed
texts are exactly what the encoder puts out. -/

namespace StrictUtf8

theorem between_iff {lo hi byte : UInt8} :
    Between lo hi byte ↔ lo.toNat ≤ byte.toNat ∧ byte.toNat ≤ hi.toNat := Iff.rfl

namespace Scalar

theorem toNat_valid (c : Char) : c.toNat < 0xD800 ∨ (0xDFFF < c.toNat ∧ c.toNat < 0x110000) := c.valid

theorem exists_toNat {v : Nat} (h : v < 0xD800 ∨ (0xDFFF < v ∧ v < 0x110000)) :
    ∃ c : Char, c.toNat = v :=
  ⟨Char.ofNatAux v h, rfl⟩

theorem encode_eq (c : Char) : String.utf8EncodeChar c =
    if c.toNat ≤ 0x7F then [.ofNat c.toNat]
    else if c.toNat ≤ 0x7FF then
      [.ofNat (c.toNat / 0x40 % 0x20 + 0xC0), .ofNat (c.toNat % 0x40 + 0x80)]
    else if c.toNat ≤ 0xFFFF then
      [.ofNat (c.toNat / 0x1000 % 0x10 + 0xE0), .ofNat (c.toNat / 0x40 % 0x40 + 0x80),
        .ofNat (c.toNat % 0x40 + 0x80)]
    else
      [.ofNat (c.toNat / 0x40000 % 0x08 + 0xF0), .ofNat (c.toNat / 0x1000 % 0x40 + 0x80),
        .ofNat (c.toNat / 0x40 % 0x40 + 0x80), .ofNat (c.toNat % 0x40 + 0x80)] := rfl

theorem charSequence_encode (c : Char) : CharSequence (String.utf8EncodeChar c) := by
  have hvalid := toNat_valid c
  rw [encode_eq]
  split
  next =>
    simp only [CharSequence.one_iff, UInt8.le_iff_toNat_le, UInt8.toNat_ofNat', Nat.reducePow,
      UInt8.reduceToNat]
    omega
  split
  next =>
    simp only [CharSequence.two_iff, Tail, between_iff, UInt8.toNat_ofNat', Nat.reducePow,
      UInt8.reduceToNat]
    omega
  -- Surrogates would start with `ED` and overlong forms with `E0`, so the rows of those leads decide.
  split
  next =>
    simp only [CharSequence.three_iff, Tail, between_iff, UInt8.le_iff_toNat_le, ← UInt8.toNat_inj,
      UInt8.toNat_ofNat', Nat.reducePow, UInt8.reduceToNat]
    omega
  next =>
    simp only [CharSequence.four_iff, Tail, between_iff, UInt8.le_iff_toNat_le, ← UInt8.toNat_inj,
      UInt8.toNat_ofNat', Nat.reducePow, UInt8.reduceToNat]
    omega

theorem exists_encode_one {a : UInt8} (ha : a ≤ 0x7F) : ∃ c, String.utf8EncodeChar c = [a] := by
  simp only [UInt8.le_iff_toNat_le, UInt8.reduceToNat] at ha
  obtain ⟨c, hc⟩ := exists_toNat (v := a.toNat) (.inl (by omega))
  refine ⟨c, ?_⟩
  rw [encode_eq, if_pos (by omega), hc, UInt8.ofNat_toNat]

theorem exists_encode_two {a b : UInt8} (ha : Between 0xC2 0xDF a) (hb : Tail b) :
    ∃ c, String.utf8EncodeChar c = [a, b] := by
  simp only [between_iff, UInt8.reduceToNat] at ha hb
  obtain ⟨c, hc⟩ := exists_toNat (v := (a.toNat - 0xC0) * 0x40 + (b.toNat - 0x80)) (by omega)
  have hfirst : c.toNat / 0x40 % 0x20 + 0xC0 = a.toNat := by omega
  have hsecond : c.toNat % 0x40 + 0x80 = b.toNat := by omega
  refine ⟨c, ?_⟩
  rw [encode_eq, if_neg (by omega), if_pos (by omega), hfirst, hsecond, UInt8.ofNat_toNat,
    UInt8.ofNat_toNat]

theorem exists_encode_three {a b c : UInt8} (ha : Between 0xE0 0xEF a) (hb : Tail b)
    (hlow : a = 0xE0 → 0xA0 ≤ b) (hhigh : a = 0xED → b ≤ 0x9F) (hc : Tail c) :
    ∃ x, String.utf8EncodeChar x = [a, b, c] := by
  simp only [between_iff, ← UInt8.toNat_inj, UInt8.le_iff_toNat_le, UInt8.reduceToNat]
    at ha hb hlow hhigh hc
  obtain ⟨x, hx⟩ := exists_toNat
    (v := (a.toNat - 0xE0) * 0x1000 + (b.toNat - 0x80) * 0x40 + (c.toNat - 0x80)) (by omega)
  have hfirst : x.toNat / 0x1000 % 0x10 + 0xE0 = a.toNat := by omega
  have hsecond : x.toNat / 0x40 % 0x40 + 0x80 = b.toNat := by omega
  have hthird : x.toNat % 0x40 + 0x80 = c.toNat := by omega
  refine ⟨x, ?_⟩
  rw [encode_eq, if_neg (by omega), if_neg (by omega), if_pos (by omega), hfirst, hsecond, hthird]
  simp only [UInt8.ofNat_toNat]

theorem exists_encode_four {a b c d : UInt8} (ha : Between 0xF0 0xF4 a) (hb : Tail b)
    (hlow : a = 0xF0 → 0x90 ≤ b) (hhigh : a = 0xF4 → b ≤ 0x8F) (hc : Tail c) (hd : Tail d) :
    ∃ x, String.utf8EncodeChar x = [a, b, c, d] := by
  simp only [between_iff, ← UInt8.toNat_inj, UInt8.le_iff_toNat_le, UInt8.reduceToNat]
    at ha hb hlow hhigh hc hd
  obtain ⟨x, hx⟩ := exists_toNat (v := (a.toNat - 0xF0) * 0x40000 + (b.toNat - 0x80) * 0x1000 +
    (c.toNat - 0x80) * 0x40 + (d.toNat - 0x80)) (by omega)
  have hfirst : x.toNat / 0x40000 % 0x08 + 0xF0 = a.toNat := by omega
  have hsecond : x.toNat / 0x1000 % 0x40 + 0x80 = b.toNat := by omega
  have hthird : x.toNat / 0x40 % 0x40 + 0x80 = c.toNat := by omega
  have hfourth : x.toNat % 0x40 + 0x80 = d.toNat := by omega
  refine ⟨x, ?_⟩
  rw [encode_eq, if_neg (by omega), if_neg (by omega), if_neg (by omega), hfirst, hsecond, hthird,
    hfourth]
  simp only [UInt8.ofNat_toNat]

theorem charSequence_iff (s : List UInt8) : CharSequence s ↔ ∃ c, String.utf8EncodeChar c = s := by
  constructor
  · intro h
    match s with
    | [] => exact (h.ne_nil rfl).elim
    | [a] => exact exists_encode_one ((CharSequence.one_iff a).mp h)
    | [a, b] =>
      obtain ⟨ha, hb⟩ := (CharSequence.two_iff a b).mp h
      exact exists_encode_two ha hb
    | [a, b, c] =>
      obtain ⟨ha, hb, hlow, hhigh, hc⟩ := (CharSequence.three_iff a b c).mp h
      exact exists_encode_three ha hb hlow hhigh hc
    | [a, b, c, d] =>
      obtain ⟨ha, hb, hlow, hhigh, hc, hd⟩ := (CharSequence.four_iff a b c d).mp h
      exact exists_encode_four ha hb hlow hhigh hc hd
    | _ :: _ :: _ :: _ :: _ :: _ => cases h
  · rintro ⟨c, rfl⟩
    exact charSequence_encode c

end Scalar

theorem wellFormed_utf8 (text : List Char) : WellFormed (utf8 text) := by
  induction text with
  | nil => exact .nil
  | cons c text ih =>
    rw [utf8, List.flatMap_cons]
    exact .append (Scalar.charSequence_encode c) ih

theorem wellFormed_iff_exists_utf8 (bytes : List UInt8) :
    WellFormed bytes ↔ ∃ text, utf8 text = bytes := by
  constructor
  · intro h
    induction h with
    | nil => exact ⟨[], rfl⟩
    | append hs _ ih =>
      obtain ⟨c, rfl⟩ := (Scalar.charSequence_iff _).mp hs
      obtain ⟨text, rfl⟩ := ih
      exact ⟨c :: text, List.flatMap_cons⟩
  · rintro ⟨text, rfl⟩
    exact wellFormed_utf8 text

end StrictUtf8
