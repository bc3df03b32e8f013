import StrictUtf8.Feed.Check
import StrictUtf8.Proofs.Scripts

/-! What the check of an unbuffered reader loses with its buffer: nothing where a mark ends the check, and
otherwise fewer bytes than the buffer holds, all of them from the run that the check stopped in. -/

namespace StrictUtf8
open Sequence
variable {ε : Type}

namespace Unread

theorem getElem?_ne_byte (u : Unread ε) (b : UInt8) : u[u.bytes.length]? ≠ some (.byte b) := by
  intro h
  rw [← List.head?_drop, drop_length_bytes] at h
  obtain ⟨rest, hrest⟩ := List.head?_eq_some_iff.mp h
  have hbytes := bytes_marks u
  rw [hrest] at hbytes
  cases hbytes

theorem getElem?_of_lt {u : Unread ε} {n : Nat} (h : n < u.bytes.length) :
    u[n]? = some (.byte u.bytes[n]) := by
  have hn : n < (ofBytes u.bytes : Unread ε).length := (length_ofBytes u.bytes).symm ▸ h
  have hsplit := (ofBytes_bytes_append_marks u).symm
  rw [congrArg (·[n]?) hsplit, List.getElem?_append_left hn, ofBytes, List.getElem?_map,
    List.getElem?_eq_getElem h]
  rfl

end Unread

namespace Script

/-- A run of the script ends in `run`, and `after` comes next. -/
def RunTail (s : Script ε) (run : List UInt8) (after : List (Event ε)) : Prop :=
  ∃ before taken, s.events = before ++ (push (taken ++ run) after).events

theorem RunTail.of_append {s : Script ε} {xs ys : List UInt8} {after : List (Event ε)}
    (h : s.RunTail (xs ++ ys) after) : s.RunTail ys after := by
  obtain ⟨before, taken, hevents⟩ := h
  exact ⟨before, taken ++ xs, by rwa [List.append_assoc]⟩

theorem runTail_of_advance {n : Nat} {s : Script ε} {head : UInt8} {tail : List UInt8}
    {after : List (Event ε)} (h : s.advance n = ⟨.data head tail :: after⟩) :
    s.RunTail (head :: tail) after := by
  induction n generalizing s with
  | zero => exact ⟨[], [], congrArg Script.events h⟩
  | succ n ih =>
    obtain ⟨before, taken, hnext⟩ := ih h
    obtain ⟨events⟩ := s
    match events with
    | [] => exact ⟨before, taken, hnext⟩
    | .eof :: events => exact ⟨.eof :: before, taken, congrArg (.eof :: ·) hnext⟩
    | .error e :: events => exact ⟨.error e :: before, taken, congrArg (.error e :: ·) hnext⟩
    | .data first [] :: events =>
      exact ⟨.data first [] :: before, taken, congrArg (.data first [] :: ·) hnext⟩
    | .data first (second :: more) :: events =>
      change .data second more :: events = _ at hnext
      cases before with
      | nil =>
        -- The run in front is the one that is cut, and `first` is the byte before the cut.
        refine ⟨[], first :: taken, ?_⟩
        cases taken with
        | nil | cons b taken =>
          obtain ⟨hdata, rfl⟩ := List.cons.inj hnext
          obtain ⟨rfl, rfl⟩ := Event.data.inj hdata
          rfl
      | cons event before =>
        obtain ⟨rfl, hevents⟩ := List.cons.inj hnext
        exact ⟨.data first (second :: more) :: before, taken, congrArg (_ :: ·) hevents⟩

theorem advance_append (before events : List (Event ε)) :
    advance (unread ⟨before⟩).length ⟨before ++ events⟩ = ⟨events⟩ := by
  induction before with
  | nil => rfl
  | cons event before ih =>
    rw [unread_cons, List.length_append, advance_add]
    cases event with
    | data head tail =>
      have hrun := advance_push (Nat.le_refl (head :: tail).length) (before ++ events)
      rw [List.drop_length] at hrun
      rw [Event.items, Unread.length_ofBytes]
      exact (congrArg (advance _) hrun).trans ih
    | eof | error e => exact ih

theorem getElem?_unread (s : Script ε) (n : Nat) : s.unread[n]? = (s.advance n).unread.head? := by
  rw [unread_advance, List.head?_drop]

theorem RunTail.position {s : Script ε} {last : UInt8} {left : List UInt8} {after : List (Event ε)}
    (h : s.RunTail (last :: left) after) :
    ∃ n, s.unread[n]? = some (.byte last) ∧ s.advance (n + 1) = push left after := by
  obtain ⟨before, taken, hevents⟩ := h
  obtain ⟨events⟩ := s
  obtain rfl : events = _ := hevents
  refine ⟨(unread ⟨before⟩).length + taken.length, ?_⟩
  have hadvance : advance ((unread ⟨before⟩).length + taken.length)
      ⟨before ++ (push (taken ++ last :: left) after).events⟩ = push (last :: left) after := by
    rw [advance_add, advance_append]
    have hlen : taken.length ≤ (taken ++ last :: left).length := by
      rw [List.length_append]
      exact Nat.le_add_right _ _
    rw [advance_push hlen, List.drop_left]
  rw [getElem?_unread, advance_add _ 1, hadvance]
  exact ⟨rfl, rfl⟩

theorem exists_runTail {s : Script ε} {n : Nat} {last : UInt8}
    (h : s.unread[n]? = some (.byte last)) :
    ∃ left after, s.RunTail (last :: left) after ∧ s.advance (n + 1) = push left after := by
  rw [getElem?_unread] at h
  rw [advance_add]
  match hs : s.advance n with
  | ⟨.data head tail :: after⟩ =>
    rw [hs] at h
    obtain rfl : head = last := Item.byte.inj (Option.some.inj h)
    exact ⟨tail, after, runTail_of_advance hs, rfl⟩
  | ⟨[]⟩ | ⟨.eof :: _⟩ | ⟨.error _ :: _⟩ =>
    rw [hs] at h
    cases h

theorem runTail_of_read {s r : Script ε} {n m : Nat} {chunk : List UInt8}
    (h : (s.advance n).read m = (.ok chunk, r)) :
    chunk = [] ∨ chunk.length ≤ m ∧ ∃ left after, s.RunTail (chunk ++ left) after ∧ r = push left after := by
  by_cases hm : m = 0
  · rw [read, if_pos hm] at h
    exact .inl (Except.ok.inj (Prod.mk.inj h).1).symm
  rw [read, if_neg hm] at h
  match hs : s.advance n with
  | ⟨.data head tail :: after⟩ =>
    rw [hs] at h
    obtain ⟨hchunk, rfl⟩ := Prod.mk.inj h
    obtain rfl := Except.ok.inj hchunk
    refine .inr ⟨List.length_take_le _ _, (head :: tail).drop m, after, ?_, rfl⟩
    rw [List.take_append_drop]
    exact runTail_of_advance hs
  | ⟨[]⟩ | ⟨.eof :: _⟩ =>
    rw [hs] at h
    exact .inl (Except.ok.inj (Prod.mk.inj h).1).symm
  | ⟨.error _ :: _⟩ =>
    rw [hs] at h
    cases (Prod.mk.inj h).1

end Script

structure Filled (s : Script ε) (capacity : Nat) (b : Block (Script ε)) : Prop where
  capacity_eq : b.capacity = capacity
  reached : ∃ n, b.reader = s.advance n
  ahead : b.held = [] ∨ b.held.length ≤ capacity ∧
    ∃ left after, s.RunTail (b.held ++ left) after ∧ b.reader = Script.push left after

/-- A block between the requests of a check: what it holds stands in one run with `last`, the byte consumed
last. -/
structure Follows (s : Script ε) (capacity : Nat) (b : Block (Script ε)) : Prop where
  capacity_eq : b.capacity = capacity
  reached : ∃ n, b.reader = s.advance n
  ahead : b.held = [] ∨ b.held.length < capacity ∧
    ∃ last left after, s.RunTail (last :: (b.held ++ left)) after ∧ b.reader = Script.push left after

section Requests
variable {s : Script ε} {capacity : Nat} {b b' : Block (Script ε)}

theorem Filled.follows (h : Filled s capacity b) (hheld : b.held = []) : Follows s capacity b :=
  ⟨h.capacity_eq, h.reached, .inl hheld⟩

theorem Filled.consume {n : Nat} (h : Filled s capacity b) (hn : n ≤ b.held.length)
    (hpos : b.held ≠ [] → 0 < n) : Follows s capacity (b.consume n) := by
  refine ⟨h.capacity_eq, h.reached, ?_⟩
  by_cases hheld : b.held = []
  · refine .inl ?_
    change b.held.drop n = []
    rw [hheld, List.drop_nil]
  obtain ⟨m, rfl⟩ := Nat.exists_eq_add_one_of_ne_zero (Nat.ne_of_gt (hpos hheld))
  obtain ⟨hlen, left, after, hrun, hreader⟩ := h.ahead.resolve_left hheld
  refine .inr ⟨?_, b.held[m], left, after, ?_, hreader⟩
  · change (b.held.drop (m + 1)).length < capacity
    rw [List.length_drop]
    omega
  · rw [← List.take_append_drop m b.held, List.append_assoc, List.drop_eq_getElem_cons hn] at hrun
    exact hrun.of_append

theorem Follows.fill (h : Follows s capacity b) : Filled s capacity b.fill.2 := by
  by_cases hheld : b.held = []
  · have hreached := Script.read_of_reached h.reached b.capacity
    obtain ⟨n, hn⟩ := h.reached
    unfold Block.fill
    rw [hheld]
    rcases hread : Reader.read b.capacity b.reader with ⟨answer, r⟩
    change b.reader.read b.capacity = (answer, r) at hread
    rw [hread] at hreached
    cases answer with
    | ok chunk =>
      refine ⟨h.capacity_eq, hreached, ?_⟩
      rw [hn] at hread
      exact h.capacity_eq ▸ Script.runTail_of_read hread
    | error e => exact ⟨h.capacity_eq, hreached, .inl rfl⟩
  · rw [Block.fill_of_held_ne_nil hheld]
    obtain ⟨hlen, last, left, after, hrun, hreader⟩ := h.ahead.resolve_left hheld
    change s.RunTail ([last] ++ (b.held ++ left)) after at hrun
    have htail : s.RunTail (b.held ++ left) after := hrun.of_append
    exact ⟨h.capacity_eq, h.reached, .inr ⟨Nat.le_of_lt hlen, left, after, htail, hreader⟩⟩

theorem Follows.filled {answer : Except ε (List UInt8)} (h : Follows s capacity b)
    (hfill : b.fill = (answer, b')) : Filled s capacity b' := by
  have hfilled := h.fill
  rwa [hfill] at hfilled

theorem Follows.read {n : Nat} (h : Follows s capacity b) (hn : 0 < n) :
    Follows s capacity (b.read n).2 := by
  unfold Block.read
  split
  -- A large request goes past the empty buffer, which stays empty.
  next hlarge => exact ⟨h.capacity_eq, Script.read_of_reached h.reached n, .inl hlarge.1⟩
  next =>
    rcases hfill : b.fill with ⟨answer, b'⟩
    cases answer with
    | error e => exact (h.filled hfill).follows (Block.held_of_fill_error hfill)
    | ok chunk =>
      obtain rfl := Block.held_of_fill hfill
      refine (h.filled hfill).consume (List.length_take_le' n _) ?_
      intro hheld
      rw [List.length_take]
      exact Nat.lt_min.mpr ⟨hn, List.length_pos_iff.mpr hheld⟩

theorem Follows.skip (h : Follows s capacity b) : Follows s capacity (Buffered.skip b).2 := by
  fun_induction Buffered.skip b with
  | case1 b e b' hfill => exact (h.filled hfill).follows (Block.held_of_fill_error hfill)
  | case2 b b' hfill => exact (h.filled hfill).follows (Block.held_of_fill hfill)
  | case3 b first chunk b' hfill lead tail hd =>
    have hheld := Block.held_of_fill hfill
    refine (h.filled hfill).consume ?_ (fun _ => Nat.succ_pos _)
    rw [hheld]
    exact (Buffered.drop_past_lead hd).1
  | case4 b first chunk b' hfill hd ih =>
    have hheld := Block.held_of_fill hfill
    have hall : (first :: chunk).length ≤ b'.held.length := Nat.le_of_eq (congrArg List.length hheld.symm)
    exact ih ((h.filled hfill).consume hall fun _ => Nat.succ_pos _)

end Requests

theorem Follows.eq_advance {s : Script ε} {capacity : Nat} {b : Block (Script ε)}
    (h : Follows s capacity b) {n : Nat} (hn : b.unread = s.unread.drop n) :
    b.reader = s.advance n ∨
      ∃ m last left after, n = m + 1 ∧ s.unread[m]? = some (.byte last) ∧
        s.RunTail (last :: (b.held ++ left)) after ∧ b.held.length < capacity ∧
        s.advance n = Script.push (b.held ++ left) after ∧ b.reader = Script.push left after := by
  by_cases hheld : b.held = []
  · obtain ⟨m, hm⟩ := h.reached
    rw [Block.unread_of_held_nil hheld, hm] at hn
    rw [hm]
    exact .inl (Script.advance_congr ((Script.unread_advance m s).symm.trans hn))
  · obtain ⟨hlen, last, left, after, hrun, hreader⟩ := h.ahead.resolve_left hheld
    obtain ⟨m, hlast, hadvance⟩ := hrun.position
    have hdrop : s.unread.drop (m + 1) = s.unread.drop n := by
      rw [← hn, ← Script.unread_advance, hadvance, Script.unread_push, Block.unread, hreader,
        Unread.ofBytes_append, List.append_assoc]
      exact congrArg (Unread.ofBytes b.held ++ ·) (Script.unread_push left after).symm
    have hpos : 0 < (s.unread.drop n).length := by
      rw [← hn, Block.unread, List.length_append, Unread.length_ofBytes]
      exact Nat.add_pos_left (List.length_pos_iff.mpr hheld) _
    have hlength := congrArg List.length hdrop
    rw [List.length_drop, List.length_drop] at hlength
    rw [List.length_drop] at hpos
    obtain rfl : n = m + 1 := by omega
    exact .inr ⟨m, last, left, after, rfl, hlast, hrun, hlen, hadvance, hreader⟩

def Truncated (bytes : List UInt8) : Prop :=
  ∃ p lead w, LongestPrefix bytes p ∧ bytes[p]? = some lead ∧ Selects lead w ∧ bytes.length < p + w

theorem truncated_iff {bytes : List UInt8} {p : Nat} {lead : UInt8} (hp : LongestPrefix bytes p)
    (hlead : bytes[p]? = some lead) : Truncated bytes ↔ bytes.length < p + width lead := by
  constructor
  · rintro ⟨q, lead', w, hq, hlead', hw, hlt⟩
    obtain rfl := hp.unique hq
    obtain rfl := Option.some.inj (hlead.symm.trans hlead')
    exact hw.eq_width ▸ hlt
  · intro hlt
    exact ⟨p, lead, width lead, hp, hlead, hp.selects hlead, hlt⟩

theorem checkUnbuffered_follows (settings : BufferSettings) (s : Script ε) :
    ∃ b, Follows s (max settings.capacity.toNat 1) b ∧
      (checkUnbuffered settings s).1 = (check s.unread).1 ∧ (checkUnbuffered settings s).2 = b.reader ∧
      b.unread = (check s.unread).2 := by
  have hstart : Follows s (max settings.capacity.toNat 1) (Block.wrap settings.capacity.toNat s) :=
    ⟨rfl, ⟨0, rfl⟩, .inl rfl⟩
  have hend := check_preserves
    (P := fun t : Buffered (Block (Script ε)) => Follows s (max settings.capacity.toNat 1) t.reader)
    (s := ⟨Block.wrap settings.capacity.toNat s⟩)
    (fun t ht => ht.skip) (fun n t hn ht => ht.read hn) hstart
  have hview := view_check (Buffered.mk (Block.wrap settings.capacity.toNat s))
  exact ⟨_, hend, congrArg Prod.fst hview, rfl, congrArg Prod.snd hview⟩

section Ends
variable {s : Script ε}

theorem checkUnbuffered_at_mark (settings : BufferSettings) {verdict : Bool}
    (h : check s.unread =
      (s.unread.marks.atMark verdict, s.unread.drop (s.unread.bytes.length + 1))) :
    checkUnbuffered settings s = ((check (Bytewise.mk s)).1, (check (Bytewise.mk s)).2.reader) := by
  obtain ⟨b, hb, hverdict, hleft, hstream⟩ := checkUnbuffered_follows settings s
  rw [h] at hverdict hstream
  rw [check_script_of_view h]
  refine Prod.ext hverdict (hleft.trans ?_)
  rcases hb.eq_advance hstream with hreader | ⟨m, last, left, after, hm, hlast, -⟩
  · exact hreader
  · obtain rfl := Nat.succ.inj hm
    exact (s.unread.getElem?_ne_byte last hlast).elim

theorem checkUnbuffered_at_byte (settings : BufferSettings) {n : Nat} {answer : Except ε Bool}
    (hn : n < s.unread.bytes.length) (h : check s.unread = (answer, s.unread.drop (n + 1))) :
    (checkUnbuffered settings s).1 = (check (Bytewise.mk s)).1 ∧
      ∃ k last left after, k < max settings.capacity.toNat 1 ∧ k ≤ left.length ∧
        s.RunTail (last :: left) after ∧ (check (Bytewise.mk s)).2.reader = Script.push left after ∧
        (checkUnbuffered settings s).2 = Script.push (left.drop k) after := by
  obtain ⟨b, hb, hverdict, hleft, hstream⟩ := checkUnbuffered_follows settings s
  rw [h] at hverdict hstream
  rw [check_script_of_view h]
  refine ⟨hverdict, ?_⟩
  rcases hb.eq_advance hstream with hreader | ⟨m, last, left, after, -, -, hrun, hlt, hrest, hreader⟩
  · obtain ⟨left, after, hrun, hrest⟩ := Script.exists_runTail (Unread.getElem?_of_lt hn)
    have hpos : 0 < max settings.capacity.toNat 1 := Nat.le_max_right _ _
    exact ⟨0, _, left, after, hpos, Nat.zero_le _, hrun, hrest, hleft.trans (hreader.trans hrest)⟩
  · refine ⟨b.held.length, last, b.held ++ left, after, hlt, ?_, hrun, hrest, ?_⟩
    · rw [List.length_append]
      exact Nat.le_add_right _ _
    · rw [List.drop_left]
      exact hleft.trans hreader

end Ends

theorem checkUnbuffered_script (settings : BufferSettings) (s : Script ε) :
    let plain := check (Bytewise.mk s)
    let blocked := checkUnbuffered settings s
    blocked.1 = plain.1 ∧
      (plain.1 ≠ .ok false ∨ Truncated s.unread.bytes → blocked.2 = plain.2.reader) ∧
      (plain.1 = .ok false → ¬ Truncated s.unread.bytes →
        ∃ k last left after, k < max settings.capacity.toNat 1 ∧ k ≤ left.length ∧
          s.RunTail (last :: left) after ∧ plain.2.reader = Script.push left after ∧
          blocked.2 = Script.push (left.drop k) after) := by
  intro plain blocked
  obtain ⟨p, hp, hcheck⟩ := check_stream s.unread
  cases hlead : s.unread.bytes[p]? with
  | none =>
    rw [hlead] at hcheck
    have hblocked : blocked = (plain.1, plain.2.reader) := checkUnbuffered_at_mark settings hcheck
    refine ⟨congrArg Prod.fst hblocked, fun _ => congrArg Prod.snd hblocked, ?_⟩
    intro hfalse
    have hplain : plain.1 = s.unread.marks.atMark true := congrArg Prod.fst (check_script_of_view hcheck)
    have hverdict := Unread.eq_of_atMark_eq_ok (hplain.symm.trans hfalse)
    cases hverdict
  | some lead =>
    simp only [hlead] at hcheck
    by_cases hle : p + width lead ≤ s.unread.bytes.length
    · rw [if_pos hle] at hcheck
      have hpos := width_pos lead
      obtain ⟨n, hn⟩ : ∃ n, p + width lead = n + 1 := ⟨p + width lead - 1, by omega⟩
      rw [hn] at hle hcheck
      obtain ⟨hverdict, hlost⟩ := checkUnbuffered_at_byte settings hle hcheck
      refine ⟨hverdict, ?_, fun _ _ => hlost⟩
      have hplain : plain.1 = .ok false := congrArg Prod.fst (check_script_of_view hcheck)
      rintro (hne | hshort)
      · exact (hne hplain).elim
      · have hlt := (truncated_iff hp hlead).mp hshort
        omega
    · rw [if_neg hle] at hcheck
      have hblocked : blocked = (plain.1, plain.2.reader) := checkUnbuffered_at_mark settings hcheck
      have hshort := (truncated_iff hp hlead).mpr (Nat.lt_of_not_le hle)
      exact ⟨congrArg Prod.fst hblocked, fun _ => congrArg Prod.snd hblocked,
        fun _ hnot => (hnot hshort).elim⟩

end StrictUtf8
