import StrictUtf8.Proofs.Sessions
import StrictUtf8.Reader.Recorded

/-! The calls that a feed makes on its buffered reader. Every buffer that the reader shows is consumed at
once, through its first byte that is not ASCII, and nothing else is ever consumed. A step that has met the
end of input or a failure makes no further call. -/

namespace StrictUtf8
open Sequence
variable {ρ σ τ ε : Type}

/-- A call that asked for bytes and met none: the end of input or a failure. -/
def Call.Barren : Call ε → Prop
  | .read size answer => 0 < size ∧ ∀ b bs, answer ≠ .ok (b :: bs)
  | .fill answer => ∀ b bs, answer ≠ .ok (b :: bs)
  | .consume _ => False

def ThroughLead (shown : List UInt8) (n : Nat) : Prop :=
  (∃ ascii lead rest, shown = ascii ++ lead :: rest ∧ (∀ b ∈ ascii, isAscii b = true) ∧
    isAscii lead = false ∧ n = ascii.length + 1) ∨
  ((∀ b ∈ shown, isAscii b = true) ∧ n = shown.length)

theorem ThroughLead.le_length {shown : List UInt8} {n : Nat} (h : ThroughLead shown n) :
    n ≤ shown.length := by
  rcases h with ⟨ascii, lead, rest, rfl, -, -, rfl⟩ | ⟨-, rfl⟩
  · rw [List.length_append, List.length_cons]
    omega
  · exact Nat.le_refl _

theorem ThroughLead.pos {shown : List UInt8} {n : Nat} (h : ThroughLead shown n) (hne : shown ≠ []) :
    0 < n := by
  rcases h with ⟨ascii, lead, rest, -, -, -, rfl⟩ | ⟨-, rfl⟩
  · exact Nat.succ_pos _
  · exact List.length_pos_iff.mpr hne

theorem throughLead_of_lead {shown rest : List UInt8} {lead : UInt8}
    (h : shown.dropWhile isAscii = lead :: rest) :
    ThroughLead shown ((shown.takeWhile isAscii).length + 1) := by
  obtain ⟨hsplit, hlead⟩ := split_of_dropWhile_cons h
  exact .inl ⟨_, lead, rest, hsplit, ascii_takeWhile shown, hlead, rfl⟩

theorem throughLead_of_ascii {shown : List UInt8} (h : shown.dropWhile isAscii = []) :
    ThroughLead shown shown.length := .inr ⟨ascii_of_dropWhile_nil h, rfl⟩

/-- Calls among which fills that show bytes and calls to consume come in pairs. -/
inductive Orderly : List (Call ε) → Prop
  | nil : Orderly []
  | take {shown n calls} : shown ≠ [] → ThroughLead shown n → Orderly calls →
      Orderly (.fill (.ok shown) :: .consume n :: calls)
  | fill {answer calls} : (Call.fill answer).Barren → Orderly calls → Orderly (.fill answer :: calls)
  | read {size answer calls} : Orderly calls → Orderly (.read size answer :: calls)

namespace Orderly

theorem append {calls more : List (Call ε)} (h : Orderly calls) (hmore : Orderly more) :
    Orderly (calls ++ more) := by
  induction h with
  | nil => exact hmore
  | take hne hthrough _ ih => exact .take hne hthrough ih
  | fill hbarren _ ih => exact .fill hbarren ih
  | read _ ih => exact .read ih

theorem flatten {parts : List (List (Call ε))} (h : ∀ calls ∈ parts, Orderly calls) :
    Orderly parts.flatten := by
  induction parts with
  | nil => exact .nil
  | cons calls parts ih =>
    obtain ⟨hcalls, hparts⟩ := List.forall_mem_cons.mp h
    exact hcalls.append (ih hparts)

theorem shown_of_consume {log : List (Call ε)} (h : Orderly log) {i n : Nat}
    (hi : log[i]? = some (.consume n)) :
    0 < n ∧ ∃ k shown, i = k + 1 ∧ log[k]? = some (.fill (.ok shown)) ∧ n ≤ shown.length := by
  induction h generalizing i with
  | nil => cases hi
  | @take shown m calls hne hthrough _ ih =>
    match i with
    | 0 => cases hi
    | 1 =>
      obtain rfl : m = n := Call.consume.inj (Option.some.inj hi)
      exact ⟨hthrough.pos hne, 0, shown, rfl, rfl, hthrough.le_length⟩
    | i + 2 =>
      obtain ⟨hpos, k, shown', rfl, hk, hle⟩ := ih hi
      exact ⟨hpos, k + 2, shown', rfl, hk, hle⟩
  | fill _ _ ih | read _ ih =>
    match i with
    | 0 => cases hi
    | i + 1 =>
      obtain ⟨hpos, k, shown, rfl, hk, hle⟩ := ih hi
      exact ⟨hpos, k + 1, shown, rfl, hk, hle⟩

theorem consume_of_shown {log : List (Call ε)} (h : Orderly log) {i : Nat} {shown : List UInt8}
    (hi : log[i]? = some (.fill (.ok shown))) (hne : shown ≠ []) :
    ∃ n, log[i + 1]? = some (.consume n) ∧ ThroughLead shown n := by
  induction h generalizing i with
  | nil => cases hi
  | @take shown' m calls _ hthrough _ ih =>
    match i with
    | 0 =>
      obtain rfl : shown' = shown := Except.ok.inj (Call.fill.inj (Option.some.inj hi))
      exact ⟨m, rfl, hthrough⟩
    | 1 => cases hi
    | i + 2 => exact ih hi
  | fill hbarren _ ih =>
    match i with
    | 0 =>
      obtain ⟨b, bs, rfl⟩ := List.exists_cons_of_ne_nil hne
      exact (hbarren b bs (Call.fill.inj (Option.some.inj hi))).elim
    | i + 1 => exact ih hi
  | read _ ih =>
    match i with
    | 0 => cases hi
    | i + 1 => exact ih hi

end Orderly

def Advances (before after : List (Call ε)) : Prop :=
  ∃ calls, after = before ++ calls ∧ Orderly calls ∧ ∀ call ∈ calls, ¬ call.Barren

def Ends (before after : List (Call ε)) : Prop :=
  ∃ calls, after = before ++ calls ∧ Orderly calls ∧ ∀ call ∈ calls.dropLast, ¬ call.Barren

section Logs
variable {a b c : List (Call ε)}

theorem Advances.refl (a : List (Call ε)) : Advances a a :=
  ⟨[], (List.append_nil a).symm, .nil, nofun⟩

theorem Advances.trans (h : Advances a b) (h' : Advances b c) : Advances a c := by
  obtain ⟨calls, rfl, horderly, hfruitful⟩ := h
  obtain ⟨more, rfl, horderly', hfruitful'⟩ := h'
  refine ⟨calls ++ more, List.append_assoc a calls more, horderly.append horderly', ?_⟩
  intro call hcall
  rcases List.mem_append.mp hcall with hcall | hcall
  · exact hfruitful call hcall
  · exact hfruitful' call hcall

theorem Advances.ends (h : Advances a b) : Ends a b := by
  obtain ⟨calls, hb, horderly, hfruitful⟩ := h
  exact ⟨calls, hb, horderly, fun call hcall => hfruitful call ((List.dropLast_sublist _).subset hcall)⟩

theorem Advances.trans_ends (h : Advances a b) (h' : Ends b c) : Ends a c := by
  obtain ⟨calls, rfl, horderly, hfruitful⟩ := h
  obtain ⟨more, rfl, horderly', hfruitful'⟩ := h'
  refine ⟨calls ++ more, List.append_assoc a calls more, horderly.append horderly', ?_⟩
  intro call hcall
  rcases List.mem_append.mp ((List.dropLast_sublist _).subset hcall) with hmem | hmem
  · exact hfruitful call hmem
  · have hne : more ≠ [] := List.ne_nil_of_mem hmem
    rw [List.dropLast_append_of_ne_nil hne] at hcall
    rcases List.mem_append.mp hcall with hcall | hcall
    · exact hfruitful call hcall
    · exact hfruitful' call hcall

theorem advances_take {shown : List UInt8} {n : Nat} (hne : shown ≠ []) (hn : ThroughLead shown n)
    (log : List (Call ε)) : Advances log (log ++ [.fill (.ok shown)] ++ [.consume n]) := by
  refine ⟨[.fill (.ok shown), .consume n], List.append_assoc _ _ _, .take hne hn .nil, ?_⟩
  intro call hcall hbarren
  obtain ⟨b, bs, rfl⟩ := List.exists_cons_of_ne_nil hne
  rcases List.mem_cons.mp hcall with rfl | hcall
  · exact hbarren b bs rfl
  · obtain rfl := List.mem_singleton.mp hcall
    exact hbarren

theorem ends_fill {answer : Except ε (List UInt8)} (h : (Call.fill answer).Barren)
    (log : List (Call ε)) : Ends log (log ++ [.fill answer]) :=
  ⟨[.fill answer], rfl, .fill h .nil, nofun⟩

theorem ends_fill_error (e : ε) (log : List (Call ε)) : Ends log (log ++ [.fill (.error e)]) := by
  apply ends_fill
  intro b bs hbytes
  cases hbytes

theorem ends_fill_nil (log : List (Call ε)) : Ends log (log ++ [.fill (.ok [])]) := by
  apply ends_fill
  intro b bs hbytes
  cases hbytes

theorem ends_read (size : Nat) (answer : Except ε (List UInt8)) (log : List (Call ε)) :
    Ends log (log ++ [.read size answer]) :=
  ⟨[.read size answer], rfl, .read .nil, nofun⟩

theorem advances_read (size : Nat) (b : UInt8) (bs : List UInt8) (log : List (Call ε)) :
    Advances log (log ++ [.read size (.ok (b :: bs))]) := by
  refine ⟨[.read size (.ok (b :: bs))], rfl, .read .nil, ?_⟩
  intro call hcall hbarren
  obtain rfl := List.mem_singleton.mp hcall
  exact hbarren.2 b bs rfl

end Logs

namespace Recorded
variable {r r' : Recorded ρ ε} {answer : Except ε (List UInt8)} {n : Nat}

theorem log_read [Reader ρ ε] (h : Reader.read n r = (answer, r')) :
    r'.log = r.log ++ [.read n answer] := by
  obtain ⟨rfl, rfl⟩ := Prod.mk.inj h
  exact List.reverse_cons

theorem log_fill [BufferedReader ρ ε] (h : BufferedReader.fill r = (answer, r')) :
    r'.log = r.log ++ [.fill answer] := by
  obtain ⟨rfl, rfl⟩ := Prod.mk.inj h
  exact List.reverse_cons

theorem log_consume [BufferedReader ρ ε] (n : Nat) (r : Recorded ρ ε) :
    (BufferedReader.consume n r).log = r.log ++ [.consume n] := List.reverse_cons

theorem since_eq {calls : List (Call ε)} (h : r'.log = r.log ++ calls) : r'.since r = calls := by
  have hcalls : r'.calls = calls.reverse ++ r.calls := by
    have hreverse := congrArg List.reverse h
    rwa [log, log, List.reverse_reverse, List.reverse_append, List.reverse_reverse] at hreverse
  have hcount : r'.calls.length - r.calls.length = calls.reverse.length := by
    rw [hcalls, List.length_append, Nat.add_sub_cancel]
  rw [since, hcount, hcalls, List.take_left, List.reverse_reverse]

end Recorded

section Steps
variable [BufferedReader ρ ε]

theorem skip_ends (r : Recorded ρ ε) : Ends r.log (Buffered.skip r).2.log ∧
    ∀ lead, (Buffered.skip r).1 = .ok (some lead) → Advances r.log (Buffered.skip r).2.log := by
  fun_induction Buffered.skip r with
  | case1 r e r' h =>
    rw [Recorded.log_fill h]
    refine ⟨ends_fill_error e r.log, ?_⟩
    intro lead hlead
    cases hlead
  | case2 r r' h =>
    rw [Recorded.log_fill h]
    refine ⟨ends_fill_nil r.log, ?_⟩
    intro lead hlead
    cases hlead
  | case3 r first chunk r' h lead rest hd =>
    have hadvances := advances_take (List.cons_ne_nil first chunk) (throughLead_of_lead hd) r.log
    rw [← Recorded.log_fill h, ← Recorded.log_consume] at hadvances
    exact ⟨hadvances.ends, fun _ _ => hadvances⟩
  | case4 r first chunk r' h hd ih =>
    have hadvances := advances_take (List.cons_ne_nil first chunk) (throughLead_of_ascii hd) r.log
    rw [← Recorded.log_fill h, ← Recorded.log_consume] at hadvances
    exact ⟨hadvances.trans_ends ih.1, fun lead hlead => hadvances.trans (ih.2 lead hlead)⟩

variable {s s' : Buffered (Recorded ρ ε)}

theorem skipAscii_ends {answer : Except ε (Option UInt8)} (h : Feed.skipAscii s = (answer, s')) :
    Ends s.reader.log s'.reader.log := by
  obtain ⟨-, rfl⟩ := Prod.mk.inj h
  exact (skip_ends s.reader).1

theorem skipAscii_advances {lead : UInt8} (h : Feed.skipAscii s = (.ok (some lead), s')) :
    Advances s.reader.log s'.reader.log := by
  obtain ⟨hlead, rfl⟩ := Prod.mk.inj h
  exact (skip_ends s.reader).2 lead hlead

theorem log_read {n : Nat} {answer : Except ε (List UInt8)} (h : Reader.read n s = (answer, s')) :
    s'.reader.log = s.reader.log ++ [.read n answer] := by
  obtain ⟨rfl, rfl⟩ := Prod.mk.inj h
  exact List.reverse_cons

theorem collect_ends (n : Nat) (s : Buffered (Recorded ρ ε)) :
    Ends s.reader.log (collect n s).2.reader.log ∧
      ∀ bytes, (collect n s).1 = .ok (some bytes) → Advances s.reader.log (collect n s).2.reader.log := by
  fun_induction collect n s with
  | case1 s => exact ⟨(Advances.refl _).ends, fun _ _ => .refl _⟩
  | case2 n s hn e s' h =>
    rw [log_read h]
    refine ⟨ends_read n _ _, ?_⟩
    intro bytes hbytes
    cases hbytes
  | case3 n s hn s' h =>
    rw [log_read h]
    refine ⟨ends_read n _ _, ?_⟩
    intro bytes hbytes
    cases hbytes
  | case4 n s hn byte bytes s' h answer s'' hc ih =>
    have hadvances := advances_read n byte bytes s.reader.log
    rw [← log_read h] at hadvances
    rw [hc] at ih
    refine ⟨hadvances.trans_ends ih.1, ?_⟩
    intro gathered hgathered
    cases answer with
    | error e => cases hgathered
    | ok more? =>
      cases more? with
      | none => cases hgathered
      | some more => exact hadvances.trans (ih.2 more rfl)

theorem check_ends (s : Buffered (Recorded ρ ε)) : Ends s.reader.log (check s).2.reader.log := by
  fun_induction check s with
  | case1 s e s₁ h | case2 s s₁ h => exact skipAscii_ends h
  | case3 s lead s₁ h hw => exact (skipAscii_advances h).ends
  | case4 s lead s₁ h hw e s₂ hc | case5 s lead s₁ h hw s₂ hc =>
    have hcollect := (collect_ends (width lead - 1) s₁).1
    rw [hc] at hcollect
    exact (skipAscii_advances h).trans_ends hcollect
  | case6 s lead s₁ h hw trailing s₂ hc hcompletes ih =>
    have hcollect := (collect_ends (width lead - 1) s₁).2
    rw [hc] at hcollect
    exact ((skipAscii_advances h).trans (hcollect trailing rfl)).trans_ends ih
  | case7 s lead s₁ h hw trailing s₂ hc hcompletes =>
    have hcollect := (collect_ends (width lead - 1) s₁).1
    rw [hc] at hcollect
    exact (skipAscii_advances h).trans_ends hcollect

theorem BufferedStep.ends (s : Buffered (Recorded ρ ε)) (step : BufferedStep) :
    Ends s.reader.log (step.perform s).2.reader.log := by
  match step with
  | .feed .skipAscii => exact (skip_ends s.reader).1
  | .feed (.read n) =>
    have hlog : (Reader.read n s).2.reader.log =
        s.reader.log ++ [.read n (Reader.read n s).1] := log_read rfl
    exact hlog ▸ ends_read n _ _
  | .feed .check | .checkReader => exact check_ends s
  | .rewrap => exact (Advances.refl _).ends

def callsOf (s : Buffered (Recorded ρ ε)) : List BufferedStep → List (List (Call ε))
  | [] => []
  | step :: steps =>
    let next := (step.perform s).2
    next.reader.since s.reader :: callsOf next steps

theorem length_callsOf (s : Buffered (Recorded ρ ε)) (steps : List BufferedStep) :
    (callsOf s steps).length = steps.length := by
  induction steps generalizing s with
  | nil => rfl
  | cons step steps ih => exact congrArg (· + 1) (ih _)

theorem log_session (s : Buffered (Recorded ρ ε)) (steps : List BufferedStep) :
    (lastState s (session BufferedStep.perform s steps)).reader.log =
        s.reader.log ++ (callsOf s steps).flatten ∧
      ∀ calls ∈ callsOf s steps, Orderly calls ∧ ∀ call ∈ calls.dropLast, ¬ call.Barren := by
  induction steps generalizing s with
  | nil => exact ⟨(List.append_nil _).symm, nofun⟩
  | cons step steps ih =>
    obtain ⟨calls, hlog, horderly, hfruitful⟩ := BufferedStep.ends s step
    obtain ⟨hrest, hsteps⟩ := ih (step.perform s).2
    have hsince := Recorded.since_eq hlog
    constructor
    · rw [session, lastState_cons, hrest, hlog, callsOf, List.flatten_cons, hsince, List.append_assoc]
    · rw [callsOf, hsince]
      exact List.forall_mem_cons.mpr ⟨⟨horderly, hfruitful⟩, hsteps⟩

def Buffered.unrecorded (s : Buffered (Recorded ρ ε)) : Buffered ρ := ⟨s.reader.reader⟩

theorem skipAscii_unrecorded (s : Buffered (Recorded ρ ε)) :
    (Feed.skipAscii s).map id Buffered.unrecorded = Feed.skipAscii s.unrecorded := by
  have hfill : ∀ r : Recorded ρ ε,
      (BufferedReader.fill r).map id Recorded.reader = BufferedReader.fill r.reader := fun _ => rfl
  have hskip := Buffered.skip_map hfill (fun _ _ => rfl) s.reader
  obtain ⟨hanswer, hreader⟩ := Prod.mk.inj hskip
  exact Prod.ext hanswer (congrArg Buffered.mk hreader)

theorem perform_unrecorded (s : Buffered (Recorded ρ ε)) (step : BufferedStep) :
    (step.perform s).map id Buffered.unrecorded = step.perform s.unrecorded := by
  have hcheck := check_map skipAscii_unrecorded (fun _ _ => rfl) s
  match step with
  | .feed .skipAscii =>
    exact congrArg (Prod.map (Except.map Answer.lead) id) (skipAscii_unrecorded s)
  | .feed (.read n) | .rewrap => rfl
  | .feed .check | .checkReader =>
    exact congrArg (Prod.map (Except.map Answer.verdict) id) hcheck

end Steps

theorem session_calls [BufferedReader ρ ε] (reader : ρ) (steps : List BufferedStep) :
    let s : Buffered (Recorded ρ ε) := ⟨⟨reader, []⟩⟩
    let log := (lastState s (session BufferedStep.perform s steps)).reader.log
    (session BufferedStep.perform s steps).map (Prod.map id Buffered.unrecorded) =
        session BufferedStep.perform ⟨reader⟩ steps ∧
      log = (callsOf s steps).flatten ∧ (callsOf s steps).length = steps.length ∧
      (∀ i n, log[i]? = some (.consume n) →
        0 < n ∧ ∃ k shown, i = k + 1 ∧ log[k]? = some (.fill (.ok shown)) ∧ n ≤ shown.length) ∧
      (∀ i shown, log[i]? = some (.fill (.ok shown)) → shown ≠ [] →
        ∃ n, log[i + 1]? = some (.consume n) ∧ ThroughLead shown n ∧
          ∀ m, log[i + 2]? ≠ some (.consume m)) ∧
      ∀ calls ∈ callsOf s steps, ∀ call ∈ calls.dropLast, ¬ call.Barren := by
  intro s log
  obtain ⟨hlog, hsteps⟩ := log_session s steps
  have hflatten : log = (callsOf s steps).flatten := hlog
  have horderly : Orderly log := hflatten ▸ Orderly.flatten fun calls hcalls => (hsteps calls hcalls).1
  refine ⟨session_map perform_unrecorded s steps, hflatten, length_callsOf s steps, ?_, ?_, ?_⟩
  · intro i n hi
    exact horderly.shown_of_consume hi
  · intro i shown hi hne
    obtain ⟨n, hn, hthrough⟩ := horderly.consume_of_shown hi hne
    refine ⟨n, hn, hthrough, ?_⟩
    intro m hm
    obtain ⟨-, k, shown', hk, hfill, -⟩ := horderly.shown_of_consume hm
    obtain rfl := Nat.succ.inj hk
    rw [hn] at hfill
    cases hfill
  · intro calls hcalls
    exact (hsteps calls hcalls).2

end StrictUtf8
