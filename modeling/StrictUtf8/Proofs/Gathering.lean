import StrictUtf8.Proofs.Calls

/-! Gathering a number of bytes over short reads: what comes out, what is consumed, and where each read
writes. -/

namespace StrictUtf8
variable {ρ ε : Type}

def cell? (start i : Nat) (bytes : List UInt8) : Option UInt8 :=
  if start ≤ i then bytes[i - start]? else none

theorem cell?_nil (start i : Nat) : cell? start i [] = none := by
  rw [cell?, List.getElem?_nil, ite_self]

theorem cell?_append (start i : Nat) (xs ys : List UInt8) :
    (cell? start i (xs ++ ys)).toList =
      (cell? start i xs).toList ++ (cell? (start + xs.length) i ys).toList := by
  by_cases hbehind : start + xs.length ≤ i
  · have hstart : start ≤ i := by omega
    have hle : xs.length ≤ i - start := by omega
    rw [cell?, cell?, cell?, if_pos hstart, if_pos hstart, if_pos hbehind,
      List.getElem?_append_right hle, List.getElem?_eq_none hle, Nat.sub_sub]
    rfl
  rw [cell?, cell?, cell?, if_neg hbehind, Option.toList_none, List.append_nil]
  by_cases hstart : start ≤ i
  · rw [if_pos hstart, if_pos hstart, List.getElem?_append_left (by omega)]
  · rw [if_neg hstart, if_neg hstart]

/-- What a call writes to the `i`-th of `m` cells. A read for `size` bytes is given the last `size` cells
and writes from the first of these on. -/
def Call.writes (m i : Nat) : Call ε → Option UInt8
  | .read size (.ok bytes) => cell? (m - size) i bytes
  | _ => none

def writesTo (m i : Nat) (calls : List (Call ε)) : List UInt8 := calls.filterMap (Call.writes m i)

theorem writesTo_cons (m i : Nat) (call : Call ε) (calls : List (Call ε)) :
    writesTo m i (call :: calls) = (call.writes m i).toList ++ writesTo m i calls := by
  cases h : call.writes m i with
  | none => exact List.filterMap_cons_none h
  | some byte => exact List.filterMap_cons_some h

theorem writes_of_no_bytes {answer : Except ε (List UInt8)} (h : ∀ b bs, answer ≠ .ok (b :: bs))
    (m i size : Nat) : (Call.read size answer).writes m i = none := by
  match answer with
  | .error e => rfl
  | .ok [] => exact cell?_nil _ i
  | .ok (b :: bs) => exact (h b bs rfl).elim

section Recording
variable [Reader ρ ε]

theorem collect_unrecorded (n : Nat) (s : Recorded ρ ε) :
    (collect n s).map id Recorded.reader = collect n s.reader :=
  collect_map (g := Recorded.reader) (fun _ _ => rfl) n s

variable [LawfulReader ρ]

theorem writesTo_collect {n m : Nat} (hn : n ≤ m) (s : Recorded ρ ε) :
    ∃ calls, (collect n s).2.log = s.log ++ calls ∧
      ∀ i, writesTo m i calls = (cell? (m - n) i ((Reader.unread s).bytes.take n)).toList := by
  fun_induction collect n s with
  | case1 s =>
    refine ⟨[], (List.append_nil _).symm, ?_⟩
    intro i
    rw [List.take_zero, cell?_nil]
    rfl
  | case2 n s hn' e s' h | case3 n s hn' s' h =>
    obtain ⟨hu, -, -⟩ := read_no_bytes (Nat.pos_of_ne_zero hn') h (by intro _ _ hbytes; cases hbytes)
    refine ⟨_, Recorded.log_read h, ?_⟩
    intro i
    rw [writesTo_cons, writes_of_no_bytes (by intro _ _ hbytes; cases hbytes), hu, List.take_nil,
      cell?_nil]
    rfl
  | case4 n s hn' byte bytes s' h answer s'' hc ih =>
    obtain ⟨hlen, hu⟩ := read_bytes (Nat.pos_of_ne_zero hn') h
    obtain ⟨calls, hlog, hcalls⟩ := ih (by omega)
    rw [hc] at hlog
    refine ⟨.read n (.ok (byte :: bytes)) :: calls, ?_, ?_⟩
    · rw [hlog, Recorded.log_read h, List.append_assoc]
      rfl
    · intro i
      -- The other reads are given the cells behind those that this one fills.
      have hbehind : m - (n - (bytes.length + 1)) = m - n + (byte :: bytes).length := by
        rw [List.length_cons]
        omega
      have htake : (byte :: bytes).take n = byte :: bytes := List.take_of_length_le hlen
      rw [writesTo_cons, hcalls, hbehind, hu, Unread.bytes_ofBytes_append, List.take_append, htake,
        cell?_append]
      rfl

end Recording

theorem collect_exact [Reader ρ ε] [LawfulReader ρ] (m : Nat) (r : ρ) :
    let u := Reader.unread r
    let out := collect m r
    let recorded := collect m (⟨r, []⟩ : Recorded ρ ε)
    recorded.map id Recorded.reader = out ∧
      ((∃ bytes, out.1 = .ok (some bytes)) ↔ m ≤ u.bytes.length) ∧
      (m ≤ u.bytes.length → out.1 = .ok (some (u.bytes.take m)) ∧ Reader.unread out.2 = u.drop m) ∧
      (u.bytes.length < m →
        out.1 = u.marks.atMark none ∧ Reader.unread out.2 = u.drop (u.bytes.length + 1)) ∧
      (∀ i, writesTo m i recorded.2.log = ((u.bytes.take m)[i]?).toList) ∧
      (m = 0 → recorded.2.log = [] ∧ out.2 = r) := by
  intro u out recorded
  have hview : (out.1, Reader.unread out.2) = u.gather m := view_collect m r
  have henough : m ≤ u.bytes.length →
      out.1 = .ok (some (u.bytes.take m)) ∧ Reader.unread out.2 = u.drop m := by
    intro hm
    rw [Unread.gather, if_pos hm] at hview
    exact Prod.mk.inj hview
  have hshort : u.bytes.length < m →
      out.1 = u.marks.atMark none ∧ Reader.unread out.2 = u.drop (u.bytes.length + 1) := by
    intro hm
    rw [Unread.gather, if_neg (Nat.not_le_of_lt hm), ← Unread.drop_length_bytes, List.drop_drop,
      Unread.drop_length_bytes] at hview
    exact Prod.mk.inj hview
  refine ⟨collect_unrecorded m ⟨r, []⟩, ⟨?_, fun hm => ⟨_, (henough hm).1⟩⟩, henough, hshort, ?_, ?_⟩
  · rintro ⟨bytes, hbytes⟩
    refine Nat.le_of_not_lt fun hm => ?_
    have hmark := (hshort hm).1.symm.trans hbytes
    cases Unread.eq_of_atMark_eq_ok hmark
  · intro i
    obtain ⟨calls, hlog, hcalls⟩ := writesTo_collect (Nat.le_refl m) (⟨r, []⟩ : Recorded ρ ε)
    have hrecorded : recorded.2.log = calls := hlog
    have hwrites := hcalls i
    rw [Nat.sub_self, cell?, if_pos (Nat.zero_le i), Nat.sub_zero] at hwrites
    exact hrecorded ▸ hwrites
  · rintro rfl
    have hnothing : ∀ {σ : Type} [Reader σ ε] (s : σ), (collect 0 s).2 = s := by
      intro σ _ s
      rw [collect, if_pos rfl]
    exact ⟨congrArg Recorded.log (hnothing (⟨r, []⟩ : Recorded ρ ε)), hnothing r⟩

theorem collect_exact_over_events :
    let r : Script ReadError := ⟨[.data 0x61 [0x62], .data 0x63 [0x64], .eof, .data 0x65 []]⟩
    LawfulReader (Script ReadError) ∧
      (collect 3 r).1 = .ok (some [0x61, 0x62, 0x63]) ∧
      Reader.unread (collect 3 r).2 = [.byte 0x64, .eof, .byte 0x65] ∧
      (collect 5 r).1 = .ok none ∧ Reader.unread (collect 5 r).2 = [.byte 0x65] := by
  intro r
  obtain ⟨-, -, henough, -⟩ := collect_exact 3 r
  obtain ⟨-, -, -, hshort, -⟩ := collect_exact 5 r
  obtain ⟨hthree, hrest⟩ := henough (by decide)
  obtain ⟨hfive, hleft⟩ := hshort (by decide)
  exact ⟨inferInstance, hthree, hrest, hfive, hleft⟩

end StrictUtf8
