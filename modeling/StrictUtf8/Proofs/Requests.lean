import StrictUtf8.Proofs.Calls
import StrictUtf8.Proofs.Prefixes

/-! The requests that the check makes on an unbuffered reader. Each asks for just what is missing of the
sequence being read, and none comes after one that met no byte or after a sequence that is rejected. -/

namespace StrictUtf8
open Sequence
variable {ρ ε : Type}

def Call.served : Call ε → List UInt8
  | .read _ (.ok bytes) => bytes
  | _ => []

def received (calls : List (Call ε)) : List UInt8 := calls.flatMap Call.served

/-- How many bytes are missing behind those received: a lead behind a text, and behind a text with part
of a sequence the rest of that sequence. -/
inductive Missing : List UInt8 → Nat → Prop
  | lead {text} : WellFormed text → Missing text 1
  | trailing {text lead part w} : WellFormed text → Selects lead w → part.length + 1 < w →
      Missing (text ++ lead :: part) (w - (part.length + 1))

theorem Missing.rest {text part : List UInt8} {lead : UInt8} {n : Nat} (htext : WellFormed text)
    (hn : part.length + 1 + n = width lead) (hpos : n ≠ 0) : Missing (text ++ lead :: part) n := by
  obtain rfl : n = width lead - (part.length + 1) := by omega
  have hselects : Selects lead (width lead) := selects_width (not_isAscii_of_width (by omega))
  exact .trailing htext hselects (by omega)

theorem Missing.pos {bytes : List UInt8} {n : Nat} (h : Missing bytes n) : 0 < n := by
  cases h with
  | lead => exact Nat.one_pos
  | trailing _ _ hpart => exact Nat.sub_pos_of_lt hpart

theorem Missing.unique {bytes : List UInt8} {m n : Nat} (hm : Missing bytes m) (hn : Missing bytes n) :
    m = n := by
  have hcut {text part : List UInt8} {lead : UInt8} {w : Nat} (htext : WellFormed text)
      (hw : Selects lead w) (hpart : part.length + 1 < w) : ¬ WellFormed (text ++ lead :: part) := by
    obtain rfl := hw.eq_width
    rw [wellFormed_append_iff htext (stuck_of_length_lt hpart)]
    exact List.cons_ne_nil lead part
  cases hm with
  | lead htext =>
    cases hn with
    | lead => rfl
    | trailing htext' hw hpart => exact (hcut htext' hw hpart htext).elim
  | @trailing text lead part w htext hw hpart =>
    generalize hbytes : text ++ lead :: part = bytes at hn
    cases hn with
    | lead htext' => exact (hcut htext hw hpart (hbytes ▸ htext')).elim
    | @trailing text' lead' part' w' htext' hw' hpart' =>
      obtain rfl := hw.eq_width
      obtain rfl := hw'.eq_width
      obtain ⟨-, hrest⟩ := (stuck_of_length_lt hpart).append_inj (stuck_of_length_lt hpart') htext htext' hbytes
      obtain ⟨rfl, rfl⟩ := List.cons.inj hrest
      rfl

def Rejected (bytes : List UInt8) : Prop :=
  ∃ text lead trailing, bytes = text ++ lead :: trailing ∧ WellFormed text ∧
    Selects lead (trailing.length + 1) ∧ ¬ CharSequence (lead :: trailing)

theorem Missing.not_rejected {bytes : List UInt8} {n : Nat} (h : Missing bytes n) :
    ¬ Rejected bytes := by
  rintro ⟨good, first, trailing, hbytes, hgood, hselects, hsequence⟩
  have hlen := hselects.eq_width
  have htail : Stuck (first :: trailing) := stuck_of_length_le (Nat.le_of_eq hlen) hsequence
  cases h with
  | lead htext =>
    rw [hbytes, wellFormed_append_iff hgood htail] at htext
    cases htext
  | @trailing text lead part w htext hw hpart =>
    obtain rfl := hw.eq_width
    -- Both cuts are at the longest well-formed prefix, where the widths differ.
    obtain ⟨-, hrest⟩ := (stuck_of_length_lt hpart).append_inj htail htext hgood hbytes
    obtain ⟨rfl, rfl⟩ := List.cons.inj hrest
    exact Nat.ne_of_lt hpart hlen

def Apt (calls : List (Call ε)) : Prop :=
  ∀ k call, calls[k]? = some call →
    ∃ n answer, call = .read n answer ∧ Missing (received (calls.take k)) n

structure Fed (calls : List (Call ε)) : Prop where
  apt : Apt calls
  fruitful : ∀ call ∈ calls, call.served ≠ []

structure Asked (calls : List (Call ε)) : Prop where
  apt : Apt calls
  fruitful : ∀ call ∈ calls.dropLast, call.served ≠ []

section Calls
variable {calls : List (Call ε)} {n : Nat} {answer : Except ε (List UInt8)}

theorem received_append (calls more : List (Call ε)) :
    received (calls ++ more) = received calls ++ received more := List.flatMap_append

theorem received_read (calls : List (Call ε)) (n : Nat) (bytes : List UInt8) :
    received (calls ++ [.read n (.ok bytes)]) = received calls ++ bytes := by
  rw [received_append]
  exact congrArg (received calls ++ ·) (List.append_nil bytes)

theorem length_received_read (calls : List (Call ε)) (n : Nat) (answer : Except ε (List UInt8)) :
    (received (calls ++ [.read n answer])).length = (received calls).length + servedCount answer := by
  match answer with
  | .ok bytes => rw [received_read, List.length_append, servedCount_ok]
  | .error e =>
    rw [received_append, List.length_append]
    rfl

theorem Apt.read (h : Apt calls) (hn : Missing (received calls) n) :
    Apt (calls ++ [.read n answer]) := by
  intro k call hk
  rcases Nat.lt_or_ge k calls.length with hlt | hge
  · rw [List.getElem?_append_left hlt] at hk
    rw [List.take_append_of_le_length (Nat.le_of_lt hlt)]
    exact h k call hk
  · rw [List.getElem?_append_right hge, List.getElem?_singleton] at hk
    split at hk
    · obtain rfl : k = calls.length := by omega
      rw [List.take_left]
      exact ⟨n, answer, (Option.some.inj hk).symm, hn⟩
    · cases hk

theorem Fed.nil : Fed ([] : List (Call ε)) :=
  ⟨fun _ _ hk => (Option.some_ne_none _ hk.symm).elim, fun _ hcall => (List.not_mem_nil hcall).elim⟩

theorem Fed.read {b : UInt8} {bs : List UInt8} (h : Fed calls) (hn : Missing (received calls) n) :
    Fed (calls ++ [.read n (.ok (b :: bs))]) := by
  refine ⟨h.apt.read hn, ?_⟩
  intro call hcall
  rcases List.mem_append.mp hcall with hcall | hcall
  · exact h.fruitful call hcall
  · obtain rfl := List.mem_singleton.mp hcall
    exact List.cons_ne_nil b bs

theorem Fed.asked (h : Fed calls) : Asked calls :=
  ⟨h.apt, fun call hcall => h.fruitful call ((List.dropLast_sublist _).subset hcall)⟩

theorem Fed.last (h : Fed calls) (hn : Missing (received calls) n) :
    Asked (calls ++ [.read n answer]) := by
  refine ⟨h.apt.read hn, ?_⟩
  rw [List.dropLast_concat]
  exact h.fruitful

theorem length_le_received (h : ∀ call ∈ calls, call.served ≠ []) :
    calls.length ≤ (received calls).length := by
  induction calls with
  | nil => exact Nat.le_refl _
  | cons call calls ih =>
    obtain ⟨hcall, hcalls⟩ := List.forall_mem_cons.mp h
    have hpos := List.length_pos_iff.mpr hcall
    have hle := ih hcalls
    rw [received, List.flatMap_cons, List.length_append, List.length_cons]
    exact Nat.add_comm .. ▸ Nat.add_le_add hpos hle

theorem Asked.length_le (h : Asked calls) : calls.length ≤ (received calls).length + 1 := by
  by_cases hne : calls = []
  · rw [hne]
    exact Nat.zero_le _
  · have hle := length_le_received h.fruitful
    have hsplit := congrArg received (List.dropLast_concat_getLast hne)
    rw [received_append] at hsplit
    rw [List.length_dropLast] at hle
    rw [← hsplit, List.length_append]
    omega

end Calls

section Runs
variable [Reader ρ ε] {s s' : Bytewise (Recorded ρ ε)}

theorem log_read_bytewise {n : Nat} {answer : Except ε (List UInt8)}
    (h : Reader.read n s = (answer, s')) : s'.reader.log = s.reader.log ++ [.read n answer] := by
  obtain ⟨rfl, rfl⟩ := Prod.mk.inj h
  exact List.reverse_cons

variable [LawfulReader ρ]

theorem served_one {r r' : Recorded ρ ε} {byte : UInt8} {bytes : List UInt8}
    (h : Reader.read 1 r = (.ok (byte :: bytes), r')) : bytes = [] := by
  obtain ⟨hlen, -⟩ := read_bytes Nat.one_pos h
  exact List.length_eq_zero_iff.mp (Nat.le_zero.mp (Nat.le_of_succ_le_succ hlen))

theorem skip_asked (r : Recorded ρ ε) (hfed : Fed r.log) (htext : WellFormed (received r.log)) :
    Asked (Bytewise.skip r).2.log ∧
      ∀ lead, (Bytewise.skip r).1 = .ok (some lead) → Fed (Bytewise.skip r).2.log ∧
        isAscii lead = false ∧
        ∃ text, WellFormed text ∧ received (Bytewise.skip r).2.log = text ++ [lead] := by
  fun_induction Bytewise.skip r with
  | case1 r e r' h | case2 r r' h =>
    rw [Recorded.log_read h]
    refine ⟨hfed.last (.lead htext), ?_⟩
    intro lead hlead
    cases hlead
  | case3 r byte bytes r' h hascii ih =>
    obtain rfl := served_one h
    have hlog := Recorded.log_read h
    apply ih
    · rw [hlog]
      exact hfed.read (.lead htext)
    · rw [hlog, received_read]
      exact htext.concat (.of_sequence (.of_isAscii hascii))
  | case4 r byte bytes r' h hascii =>
    obtain rfl := served_one h
    have hfed' : Fed r'.log := by
      rw [Recorded.log_read h]
      exact hfed.read (.lead htext)
    refine ⟨hfed'.asked, ?_⟩
    intro lead hlead
    obtain rfl : byte = lead := Option.some.inj (Except.ok.inj hlead)
    refine ⟨hfed', Bool.eq_false_iff.mpr hascii, received r.log, htext, ?_⟩
    rw [Recorded.log_read h, received_read]

theorem collect_asked (n : Nat) (s : Bytewise (Recorded ρ ε)) {text part : List UInt8} {lead : UInt8}
    (hfed : Fed s.reader.log) (htext : WellFormed text)
    (hpart : received s.reader.log = text ++ lead :: part) (hn : part.length + 1 + n = width lead) :
    Asked (collect n s).2.reader.log ∧
      ∀ rest, (collect n s).1 = .ok (some rest) → Fed (collect n s).2.reader.log ∧
        rest.length = n ∧ received (collect n s).2.reader.log = text ++ lead :: (part ++ rest) := by
  fun_induction collect n s generalizing part with
  | case1 s =>
    refine ⟨hfed.asked, ?_⟩
    intro rest hrest
    obtain rfl : [] = rest := Option.some.inj (Except.ok.inj hrest)
    rw [List.append_nil]
    exact ⟨hfed, rfl, hpart⟩
  | case2 n s hn' e s' h | case3 n s hn' s' h =>
    have hmissing : Missing (received s.reader.log) n := hpart ▸ .rest htext hn hn'
    rw [log_read_bytewise h]
    refine ⟨hfed.last hmissing, ?_⟩
    intro rest hrest
    cases hrest
  | case4 n s hn' byte bytes s' h answer s'' hc ih =>
    obtain ⟨hlen, -⟩ := read_bytes (Nat.pos_of_ne_zero hn') h
    have hmissing : Missing (received s.reader.log) n := hpart ▸ .rest htext hn hn'
    have hfed' : Fed s'.reader.log := by
      rw [log_read_bytewise h]
      exact hfed.read hmissing
    have hpart' : received s'.reader.log = text ++ lead :: (part ++ byte :: bytes) := by
      rw [log_read_bytewise h, received_read, hpart, List.append_assoc]
      rfl
    have hn'' : (part ++ byte :: bytes).length + 1 + (n - (bytes.length + 1)) = width lead := by
      rw [List.length_append, List.length_cons]
      omega
    obtain ⟨hasked, hgathered⟩ := ih hfed' hpart' hn''
    rw [hc] at hasked hgathered
    refine ⟨hasked, ?_⟩
    intro rest hrest
    cases answer with
    | error e => cases hrest
    | ok more? =>
      cases more? with
      | none => cases hrest
      | some more =>
        obtain rfl : byte :: bytes ++ more = rest := Option.some.inj (Except.ok.inj hrest)
        obtain ⟨hfed'', hmore, hreceived⟩ := hgathered more rfl
        refine ⟨hfed'', ?_, ?_⟩
        · rw [List.length_append, List.length_cons, hmore]
          omega
        · rw [hreceived, List.append_assoc]

theorem collect_behind_lead (s : Bytewise (Recorded ρ ε)) {text : List UInt8} {lead : UInt8}
    (hfed : Fed s.reader.log) (htext : WellFormed text)
    (hlead : received s.reader.log = text ++ [lead]) :
    Asked (collect (width lead - 1) s).2.reader.log ∧
      ∀ rest, (collect (width lead - 1) s).1 = .ok (some rest) →
        Fed (collect (width lead - 1) s).2.reader.log ∧ rest.length = width lead - 1 ∧
          received (collect (width lead - 1) s).2.reader.log = text ++ lead :: rest := by
  have hwidth : ([] : List UInt8).length + 1 + (width lead - 1) = width lead := by
    have hpos := width_pos lead
    rw [List.length_nil]
    omega
  exact collect_asked (width lead - 1) s hfed htext hlead hwidth

theorem skipAscii_asked {answer : Except ε (Option UInt8)} (h : Feed.skipAscii s = (answer, s'))
    (hfed : Fed s.reader.log) (htext : WellFormed (received s.reader.log)) : Asked s'.reader.log := by
  obtain ⟨-, rfl⟩ := Prod.mk.inj h
  exact (skip_asked s.reader hfed htext).1

theorem skipAscii_fed {lead : UInt8} (h : Feed.skipAscii s = (.ok (some lead), s'))
    (hfed : Fed s.reader.log) (htext : WellFormed (received s.reader.log)) :
    Fed s'.reader.log ∧ isAscii lead = false ∧
      ∃ text, WellFormed text ∧ received s'.reader.log = text ++ [lead] := by
  obtain ⟨hlead, rfl⟩ := Prod.mk.inj h
  exact (skip_asked s.reader hfed htext).2 lead hlead

theorem check_asked (s : Bytewise (Recorded ρ ε)) (hfed : Fed s.reader.log)
    (htext : WellFormed (received s.reader.log)) : Asked (check s).2.reader.log := by
  fun_induction check s with
  | case1 s e s₁ h | case2 s s₁ h => exact skipAscii_asked h hfed htext
  | case3 s lead s₁ h hw => exact (skipAscii_fed h hfed htext).1.asked
  | case4 s lead s₁ h hw e s₂ hc | case5 s lead s₁ h hw s₂ hc
  | case7 s lead s₁ h hw trailing s₂ hc hcompletes =>
    obtain ⟨hfed₁, -, text, htext₁, hlead⟩ := skipAscii_fed h hfed htext
    have hasked := (collect_behind_lead s₁ hfed₁ htext₁ hlead).1
    rwa [hc] at hasked
  | case6 s lead s₁ h hw trailing s₂ hc hcompletes ih =>
    obtain ⟨hfed₁, hascii, text, htext₁, hlead⟩ := skipAscii_fed h hfed htext
    have hcollect := (collect_behind_lead s₁ hfed₁ htext₁ hlead).2 trailing
    rw [hc] at hcollect
    obtain ⟨hfed₂, hlen, hreceived⟩ := hcollect rfl
    have hwidth : trailing.length + 1 = width lead := by
      have hpos := width_pos lead
      omega
    have hsequence : CharSequence (lead :: trailing) :=
      (CharSequence.cons_iff lead trailing).mpr (.inr ⟨hascii, hwidth, hcompletes⟩)
    apply ih hfed₂
    rw [hreceived]
    exact htext₁.concat (.of_sequence hsequence)

end Runs

namespace Script

theorem bytesLeft_push (bytes : List UInt8) (events : List (Event ε)) :
    (push bytes events).bytesLeft = bytes.length + bytesLeft ⟨events⟩ := by
  match bytes with
  | [] => exact (Nat.zero_add _).symm
  | head :: tail => rfl

theorem bytesLeft_read (n : Nat) (s : Script ε) :
    servedCount (s.read n).1 + (s.read n).2.bytesLeft = s.bytesLeft := by
  obtain ⟨events⟩ := s
  unfold read
  split
  · exact Nat.zero_add _
  · match events with
    | [] => rfl
    | .data head tail :: events =>
      have hsize : bytesLeft ⟨.data head tail :: events⟩ = (head :: tail).length + bytesLeft ⟨events⟩ := rfl
      rw [servedCount_ok, bytesLeft_push, hsize, List.length_take, List.length_drop]
      omega
    | .eof :: events | .error e :: events => rfl

end Script

theorem received_add_bytesLeft (s : Script ε) :
    let left := (check (Bytewise.mk (⟨s, []⟩ : Recorded (Script ε) ε))).2.reader
    (received left.log).length + left.reader.bytesLeft = s.bytesLeft := by
  have hread : ∀ n (r : Recorded (Script ε) ε),
      (received r.log).length + r.reader.bytesLeft = s.bytesLeft →
        (received (Reader.read n r).2.log).length + (Reader.read n r).2.reader.bytesLeft =
          s.bytesLeft := by
    intro n r hr
    have hserved := r.reader.bytesLeft_read n
    have hlog : (Reader.read n r).2.log = r.log ++ [.read n (r.reader.read n).1] :=
      Recorded.log_read rfl
    have hleft : (Reader.read n r).2.reader = (r.reader.read n).2 := rfl
    rw [hlog, hleft, length_received_read]
    omega
  exact check_preserves
    (P := fun t : Bytewise (Recorded (Script ε) ε) =>
      (received t.reader.log).length + t.reader.reader.bytesLeft = s.bytesLeft)
    (fun t ht => Bytewise.skip_preserves hread ht) (fun n t _ ht => hread n t.reader ht)
    (Nat.zero_add _)

def Bytewise.unrecorded (s : Bytewise (Recorded ρ ε)) : Bytewise ρ := ⟨s.reader.reader⟩

theorem check_unrecorded [Reader ρ ε] (s : Bytewise (Recorded ρ ε)) :
    (check s).map id Bytewise.unrecorded = check s.unrecorded := by
  refine check_map (g := Bytewise.unrecorded) ?_ (fun _ _ => rfl) s
  intro t
  have hskip := Bytewise.skip_map (g := Recorded.reader) (fun _ _ => rfl) t.reader
  obtain ⟨hanswer, hreader⟩ := Prod.mk.inj hskip
  exact Prod.ext hanswer (congrArg Bytewise.mk hreader)

theorem check_requests (s : Script ε) :
    let out := check (Bytewise.mk (⟨s, []⟩ : Recorded (Script ε) ε))
    let calls := out.2.reader.log
    out.map id Bytewise.unrecorded = check (Bytewise.mk s) ∧
      (∀ k call, calls[k]? = some call → ∃ n answer, call = .read n answer ∧
        0 < n ∧ Missing (received (calls.take k)) n ∧ ¬ Rejected (received (calls.take k)) ∧
        (k + 1 < calls.length → ∃ b bs, answer = .ok (b :: bs))) ∧
      (received calls).length + out.2.reader.reader.bytesLeft = s.bytesLeft ∧
      calls.length ≤ (received calls).length + 1 := by
  intro out calls
  have hasked : Asked calls := check_asked (Bytewise.mk ⟨s, []⟩) .nil .nil
  refine ⟨check_unrecorded (Bytewise.mk ⟨s, []⟩), ?_, received_add_bytesLeft s, hasked.length_le⟩
  intro k call hk
  obtain ⟨n, answer, rfl, hmissing⟩ := hasked.apt k call hk
  refine ⟨n, answer, rfl, hmissing.pos, hmissing, hmissing.not_rejected, ?_⟩
  intro hlt
  have hmem : .read n answer ∈ calls.dropLast := by
    refine List.mem_of_getElem? (i := k) ?_
    rw [List.getElem?_dropLast, if_pos (by omega), hk]
  have hserved := hasked.fruitful _ hmem
  match answer with
  | .ok (b :: bs) => exact ⟨b, bs, rfl⟩
  | .ok [] | .error e => exact (hserved rfl).elim

end StrictUtf8
