import StrictUtf8.Feed.Check
import StrictUtf8.Proofs.Feeds

/-! The streaming check of a lawful feed is the check of its stream: same answer, same rest. -/

namespace StrictUtf8
open Sequence
variable {σ τ ρ ε α : Type}

namespace Unread

def gather (n : Nat) (u : Unread ε) : Except ε (Option (List UInt8)) × Unread ε :=
  if n ≤ u.bytes.length then (.ok (some (u.bytes.take n)), u.drop n)
  else (u.marks.atMark none, u.marks.drop 1)

theorem gather_zero (u : Unread ε) : u.gather 0 = (.ok (some []), u) := by
  rw [gather, if_pos (Nat.zero_le _)]
  rfl

theorem gather_of_bytes_nil {n : Nat} (hn : 0 < n) {u : Unread ε} (h : u.bytes = []) :
    u.gather n = (u.atMark none, u.drop 1) := by
  rw [gather, h, List.length_nil, if_neg (Nat.not_le_of_lt hn), marks_of_bytes_nil h]

theorem gather_run {n : Nat} {xs : List UInt8} (h : n ≤ xs.length) (u : Unread ε) :
    gather n (ofBytes xs ++ u) = (.ok (some (xs.take n)), ofBytes (xs.drop n) ++ u) := by
  have hle : n ≤ (xs ++ u.bytes).length := by
    rw [List.length_append]
    omega
  rw [gather, bytes_ofBytes_append, if_pos hle, List.take_append_of_le_length h, drop_ofBytes_append h]

theorem gather_short {n : Nat} {xs : List UInt8} (h : xs.length < n) {u : Unread ε}
    (hu : u.bytes = []) : gather n (ofBytes xs ++ u) = (u.atMark none, u.drop 1) := by
  rw [gather, bytes_ofBytes_append, marks_ofBytes_append, hu, List.append_nil,
    if_neg (Nat.not_le_of_lt h), marks_of_bytes_nil hu]

theorem gather_append {n : Nat} {served : List UInt8} (h : served.length ≤ n) (u : Unread ε) :
    gather n (ofBytes served ++ u) =
      ((u.gather (n - served.length)).1.map (·.map (served ++ ·)), (u.gather (n - served.length)).2) := by
  have htake : served.take n = served := List.take_of_length_le h
  have hdrop : (ofBytes served : Unread ε).drop n = [] :=
    List.drop_eq_nil_of_le ((length_ofBytes served).symm ▸ h)
  simp only [gather, bytes_ofBytes_append, marks_ofBytes_append, List.length_append]
  by_cases hle : n - served.length ≤ u.bytes.length
  · have hle' : n ≤ served.length + u.bytes.length := by omega
    rw [if_pos hle, if_pos hle', List.take_append, List.drop_append, htake, hdrop, length_ofBytes]
    rfl
  · have hlt : ¬ n ≤ served.length + u.bytes.length := by omega
    rw [if_neg hle, if_neg hlt]
    rw [map_atMark]
    rfl

end Unread

theorem view_collect [Reader ρ ε] [LawfulReader ρ] (n : Nat) (r : ρ) :
    view (collect n r) = (Reader.unread r).gather n := by
  fun_induction collect n r with
  | case1 r => exact (Unread.gather_zero _).symm
  | case2 n r hn e r' h =>
    have hpos := Nat.pos_of_ne_zero hn
    obtain ⟨hu, hanswer, hrest⟩ := read_no_bytes hpos h (by intro _ _ hbytes; cases hbytes)
    rw [Unread.gather_of_bytes_nil hpos hu, ← hrest]
    exact congrArg (·, Reader.unread r') (Unread.atMark_eq_error hanswer.symm none).symm
  | case3 n r hn r' h =>
    have hpos := Nat.pos_of_ne_zero hn
    obtain ⟨hu, hanswer, hrest⟩ := read_no_bytes hpos h (by intro _ _ hbytes; cases hbytes)
    rw [Unread.gather_of_bytes_nil hpos hu, ← hrest]
    exact congrArg (·, Reader.unread r') (Unread.atMark_eq_ok hanswer.symm none).symm
  | case4 n r hn byte bytes r' h answer r'' hc ih =>
    obtain ⟨hlen, hu⟩ := read_bytes (Nat.pos_of_ne_zero hn) h
    rw [hc] at ih
    rw [hu, Unread.gather_append hlen, List.length_cons, ← ih]
    rfl

def conclude [Feed σ ε] (lead : UInt8) : Except ε (Option (List UInt8)) × σ → Except ε Bool × σ
  | (.error e, s) => (.error e, s)
  | (.ok none, s) => (.ok false, s)
  | (.ok (some trailing), s) => if completes lead trailing then check s else (.ok false, s)

theorem check_eq [Feed σ ε] (s : σ) : check s =
    match Feed.skipAscii s with
    | (.error e, s₁) => (.error e, s₁)
    | (.ok none, s₁) => (.ok true, s₁)
    | (.ok (some lead), s₁) =>
      if width lead = 1 then (.ok false, s₁) else conclude lead (collect (width lead - 1) s₁) := by
  rw [check]
  split
  next e s₁ h => rw [h]
  next s₁ h => rw [h]
  next lead s₁ h =>
    simp only [h]
    split
    next => rfl
    next =>
      split
      next e s₂ h => rw [h, conclude]
      next s₂ h => rw [h, conclude]
      next trailing s₂ h => rw [h, conclude]

theorem collect_preserves [Reader ρ ε] {P : ρ → Prop}
    (hread : ∀ n r, 0 < n → P r → P (Reader.read n r).2) (n : Nat) {r : ρ} (hr : P r) :
    P (collect n r).2 := by
  fun_induction collect n r with
  | case1 => exact hr
  | case2 n r hn e r' h | case3 n r hn r' h =>
    have hr' := hread n r (Nat.pos_of_ne_zero hn) hr
    rwa [h] at hr'
  | case4 n r hn byte bytes r' h answer r'' hc ih =>
    have hr' := hread n r (Nat.pos_of_ne_zero hn) hr
    rw [h] at hr'
    have hr'' := ih hr'
    rwa [hc] at hr''

theorem check_preserves [Feed σ ε] {P : σ → Prop} (hskip : ∀ s, P s → P (Feed.skipAscii s).2)
    (hread : ∀ n s, 0 < n → P s → P (Reader.read n s).2) {s : σ} (hs : P s) : P (check s).2 := by
  fun_induction check s with
  | case1 s e s₁ h | case2 s s₁ h | case3 s lead s₁ h hw =>
    have hs₁ := hskip s hs
    rwa [h] at hs₁
  | case4 s lead s₁ h hw e s₂ hc | case5 s lead s₁ h hw s₂ hc
  | case7 s lead s₁ h hw trailing s₂ hc hcompletes =>
    have hs₁ := hskip s hs
    rw [h] at hs₁
    have hs₂ := collect_preserves hread (width lead - 1) hs₁
    rwa [hc] at hs₂
  | case6 s lead s₁ h hw trailing s₂ hc hcompletes ih =>
    have hs₁ := hskip s hs
    rw [h] at hs₁
    have hs₂ := collect_preserves hread (width lead - 1) hs₁
    rw [hc] at hs₂
    exact ih hs₂

theorem collect_map [Reader σ ε] [Reader τ ε] {g : σ → τ}
    (hread : ∀ n s, (Reader.read n s).map id g = Reader.read n (g s)) (n : Nat) (s : σ) :
    (collect n s).map id g = collect n (g s) := by
  fun_induction collect n s with
  | case1 s =>
    rw [collect, if_pos rfl]
    rfl
  | case2 n s hn e s' h | case3 n s hn s' h =>
    rw [collect, if_neg hn, ← hread, h]
    rfl
  | case4 n s hn byte bytes s' h answer s'' hc ih =>
    rw [collect, if_neg hn, ← hread, h]
    show _ = ((collect _ (g s')).1.map _, (collect _ (g s')).2)
    rw [← ih, hc]
    rfl

theorem check_map [Feed σ ε] [Feed τ ε] {g : σ → τ}
    (hskip : ∀ s, (Feed.skipAscii s).map id g = Feed.skipAscii (g s))
    (hread : ∀ n s, (Reader.read n s).map id g = Reader.read n (g s)) (s : σ) :
    (check s).map id g = check (g s) := by
  fun_induction check s with
  | case1 s e s₁ h | case2 s s₁ h =>
    rw [check_eq, ← hskip, h]
    rfl
  | case3 s lead s₁ h hw =>
    rw [check_eq, ← hskip, h]
    simp only [Prod.map, id, if_pos hw]
  | case4 s lead s₁ h hw e s₂ hc | case5 s lead s₁ h hw s₂ hc =>
    rw [check_eq, ← hskip, h]
    simp only [Prod.map, id, if_neg hw, ← collect_map hread, hc, conclude]
  | case6 s lead s₁ h hw trailing s₂ hc hcompletes ih =>
    rw [ih, check_eq (g s), ← hskip, h]
    simp only [Prod.map, id, if_neg hw, ← collect_map hread, hc, conclude, if_pos hcompletes]
  | case7 s lead s₁ h hw trailing s₂ hc hcompletes =>
    rw [check_eq, ← hskip, h]
    simp only [Prod.map, id, if_neg hw, ← collect_map hread, hc, conclude, if_neg hcompletes]

theorem skipAscii_unread [Feed σ ε] [LawfulFeed σ] {s s' : σ} {answer : Except ε (Option UInt8)}
    (h : Feed.skipAscii s = (answer, s')) :
    Feed.skipAscii (Reader.unread s) = (answer, Reader.unread s') := by
  have hskip := LawfulFeed.skips s
  rw [h] at hskip
  exact hskip.symm

theorem collect_unread [Reader ρ ε] [LawfulReader ρ] {n : Nat} {r r' : ρ}
    {answer : Except ε (Option (List UInt8))} (h : collect n r = (answer, r')) :
    collect n (Reader.unread r) = (answer, Reader.unread r') := by
  have hr := view_collect n r
  rw [h] at hr
  exact (view_collect n (Reader.unread r)).trans hr.symm

theorem view_check [Feed σ ε] [LawfulFeed σ] (s : σ) : view (check s) = check (Reader.unread s) := by
  rw [check_eq (Reader.unread s)]
  fun_induction check s with
  | case1 s e s₁ h =>
    rw [skipAscii_unread h]
    rfl
  | case2 s s₁ h =>
    rw [skipAscii_unread h]
    rfl
  | case3 s lead s₁ h hw =>
    simp only [skipAscii_unread h, if_pos hw]
    rfl
  | case4 s lead s₁ h hw e s₂ hc =>
    simp only [skipAscii_unread h, if_neg hw, collect_unread hc]
    rfl
  | case5 s lead s₁ h hw s₂ hc =>
    simp only [skipAscii_unread h, if_neg hw, collect_unread hc]
    rfl
  | case6 s lead s₁ h hw trailing s₂ hc hcompletes ih =>
    simp only [skipAscii_unread h, if_neg hw, collect_unread hc, conclude, if_pos hcompletes]
    exact ih.trans (check_eq (Reader.unread s₂)).symm
  | case7 s lead s₁ h hw trailing s₂ hc hcompletes =>
    simp only [skipAscii_unread h, if_neg hw, collect_unread hc, conclude, if_neg hcompletes]
    rfl

theorem check_of_stream [Feed σ ε] [LawfulFeed σ]
    (hinj : ∀ s t : σ, Reader.unread s = Reader.unread t → s = t) {s left : σ}
    {answer : Except ε Bool} (h : check (Reader.unread s) = (answer, Reader.unread left)) :
    check s = (answer, left) := by
  have hview : view (check s) = (answer, Reader.unread left) := (view_check s).trans h
  obtain ⟨hanswer, hleft⟩ := Prod.mk.inj hview
  exact Prod.ext hanswer (hinj _ _ hleft)

end StrictUtf8
