import StrictUtf8.Proofs.Sessions

/-! What a session takes from its stream. Every step takes a run of bytes from the front and at most one
mark behind it, and its answer tells which; so no byte is lost, doubled or moved, and a failure is reported
exactly when its mark is taken. -/

namespace StrictUtf8
open Sequence
variable {σ ρ ε ε' : Type}

inductive Mark (ε : Type) where
  | eof
  | error (e : ε)
deriving DecidableEq, Repr

def Mark.item : Mark ε → Item ε
  | .eof => .eof
  | .error e => .error e

structure Portion (ε : Type) where
  run : List UInt8
  mark : Option (Mark ε)
deriving DecidableEq, Repr

namespace Portion

def items (p : Portion ε) : Unread ε := .ofBytes p.run ++ (p.mark.map Mark.item).toList

def answer {α : Type} (p : Portion ε) (answer : α) : Except ε α :=
  match p.mark with
  | some (.error e) => .error e
  | _ => .ok answer

theorem items_run (run : List UInt8) : (⟨run, none⟩ : Portion ε).items = .ofBytes run :=
  List.append_nil _

theorem answer_eq_error_iff {α : Type} (p : Portion ε) (a : α) (e : ε) :
    p.answer a = .error e ↔ p.mark = some (.error e) := by
  obtain ⟨run, mark⟩ := p
  match mark with
  | none | some .eof =>
    refine iff_of_false ?_ ?_
    · intro h
      cases h
    · intro h
      cases h
  | some (.error e') =>
    constructor
    · intro h
      obtain rfl := Except.error.inj h
      rfl
    · intro h
      obtain rfl := Mark.error.inj (Option.some.inj h)
      rfl

end Portion

namespace Unread

def mark? : Unread ε → Option (Mark ε)
  | .eof :: _ => some .eof
  | .error e :: _ => some (.error e)
  | _ => none

def leading (u : Unread ε) : Portion ε := ⟨u.bytes, u.marks.mark?⟩

theorem mark?_append_drop {u : Unread ε} (h : u.bytes = []) :
    (u.mark?.map Mark.item).toList ++ u.drop 1 = u := by
  match u with
  | .byte b :: rest => cases h
  | [] | .eof :: rest | .error e :: rest => rfl

theorem items_leading (u : Unread ε) : u.leading.items ++ u.marks.drop 1 = u := by
  rw [leading, Portion.items, List.append_assoc, mark?_append_drop (bytes_marks u),
    ofBytes_bytes_append_marks]

theorem answer_leading {α : Type} (u : Unread ε) (a : α) : u.leading.answer a = u.marks.atMark a := by
  rw [leading, Portion.answer]
  match u.marks with
  | [] | .byte b :: rest | .eof :: rest | .error e :: rest => rfl

theorem drop_of_mark_none {u : Unread ε} (h : u.leading.mark = none) : u.marks.drop 1 = [] := by
  have hbytes := bytes_marks u
  rw [leading] at h
  match hmarks : u.marks with
  | [] => rfl
  | .byte b :: rest =>
    rw [hmarks] at hbytes
    cases hbytes
  | .eof :: rest | .error e :: rest =>
    rw [hmarks] at h
    cases h

end Unread

/-- How the answer to a step tells what it took, given what it leaves. A skip takes ASCII and then the byte
that it returns, or a mark, or else all there is; a read takes the bytes that it returns, or a mark, and
takes nothing only if nothing is asked for or left. -/
def Explains (p : Portion ε) (left : Unread ε) (answer : Except ε Answer) : BufferedStep → Prop
  | .feed .skipAscii =>
    (∃ ascii lead, p = ⟨ascii ++ [lead], none⟩ ∧ (∀ b ∈ ascii, isAscii b = true) ∧
      isAscii lead = false ∧ answer = .ok (.lead (some lead))) ∨
    ((∀ b ∈ p.run, isAscii b = true) ∧ (p.mark = none → left = []) ∧ answer = p.answer (.lead none))
  | .feed (.read n) =>
    p.run.length ≤ n ∧ (p.run = [] ∨ p.mark = none) ∧
      (p.run = [] → p.mark = none → n = 0 ∨ left = []) ∧ answer = p.answer (.bytes p.run)
  | .feed .check | .checkReader => ∃ verdict, answer = p.answer (.verdict verdict)
  | .rewrap => p = ⟨[], none⟩ ∧ answer = .ok .done

theorem Explains.fails_iff {p : Portion ε} {left : Unread ε} {answer : Except ε Answer}
    {step : BufferedStep} (h : Explains p left answer step) (e : ε) :
    answer = .error e ↔ p.mark = some (.error e) := by
  match step with
  | .feed .skipAscii =>
    rcases h with ⟨ascii, lead, rfl, -, -, rfl⟩ | ⟨-, -, rfl⟩
    · exact Portion.answer_eq_error_iff ⟨ascii ++ [lead], none⟩ _ e
    · exact p.answer_eq_error_iff _ e
  | .feed (.read n) =>
    obtain ⟨-, -, -, rfl⟩ := h
    exact p.answer_eq_error_iff _ e
  | .feed .check | .checkReader =>
    obtain ⟨verdict, rfl⟩ := h
    exact p.answer_eq_error_iff _ e
  | .rewrap =>
    obtain ⟨rfl, rfl⟩ := h
    exact Portion.answer_eq_error_iff ⟨[], none⟩ _ e

structure Takes (step : BufferedStep) (u : Unread ε) (answer : Except ε Answer) (left : Unread ε)
    (p : Portion ε) : Prop where
  split : u = p.items ++ left
  fails_iff : ∀ e, answer = .error e ↔ p.mark = some (.error e)
  explains : Explains p left answer step

theorem Takes.of_explains {step : BufferedStep} {u left : Unread ε} {answer : Except ε Answer}
    {p : Portion ε} (hsplit : u = p.items ++ left) (h : Explains p left answer step) :
    Takes step u answer left p := ⟨hsplit, h.fails_iff, h⟩

theorem takes_skipAscii (u : Unread ε) :
    ∃ p, Takes (.feed .skipAscii) u (u.skipAscii.1.map .lead) u.skipAscii.2 p := by
  have hrun := Unread.skipAscii_run u.bytes u.marks
  rw [Unread.ofBytes_bytes_append_marks] at hrun
  cases hdrop : u.bytes.dropWhile isAscii with
  | nil =>
    have hascii := ascii_of_dropWhile_nil hdrop
    rw [hdrop, Unread.skipAscii_of_mark (Unread.bytes_marks u) rfl rfl] at hrun
    rw [hrun]
    refine ⟨u.leading, .of_explains u.items_leading.symm (.inr ⟨hascii, ?_, ?_⟩)⟩
    · exact Unread.drop_of_mark_none
    · rw [Unread.answer_leading, Unread.map_atMark, Unread.map_atMark]
  | cons lead rest =>
    obtain ⟨hsplit, hlead⟩ := split_of_dropWhile_cons hdrop
    rw [hdrop] at hrun
    rw [hrun]
    refine ⟨⟨u.bytes.takeWhile isAscii ++ [lead], none⟩,
      .of_explains ?_ (.inl ⟨_, lead, rfl, ascii_takeWhile u.bytes, hlead, rfl⟩)⟩
    rw [Portion.items_run, ← List.append_assoc, ← Unread.ofBytes_append, List.append_assoc]
    exact (hsplit ▸ Unread.ofBytes_bytes_append_marks u).symm

theorem Serve.takes {n : Nat} {u u' : Unread ε} {answer : Except ε (List UInt8)}
    (h : Serve n u answer u') : ∃ p, Takes (.feed (.read n)) u (answer.map .bytes) u' p := by
  cases h with
  | idle hn =>
    exact ⟨⟨[], none⟩, .of_explains rfl ⟨Nat.zero_le n, .inl rfl, fun _ _ => .inl hn, rfl⟩⟩
  | @bytes served rest hne hlen =>
    refine ⟨⟨served, none⟩, .of_explains ?_ ⟨hlen, .inr rfl, fun hnil _ => (hne hnil).elim, rfl⟩⟩
    rw [Portion.items_run]
  | mark hu =>
    have hitems := u.items_leading
    rw [Unread.marks_of_bytes_nil hu] at hitems
    have hrun : u.leading.run = [] := hu
    refine ⟨u.leading, .of_explains hitems.symm ⟨?_, .inl hrun, ?_, ?_⟩⟩
    · rw [hrun]
      exact Nat.zero_le n
    · intro _ hmark
      have hend := Unread.drop_of_mark_none hmark
      rw [Unread.marks_of_bytes_nil hu] at hend
      exact .inr hend
    · rw [Unread.answer_leading, Unread.marks_of_bytes_nil hu, Unread.map_atMark, hrun]

theorem takes_check (u : Unread ε) :
    ∃ p, Takes (.feed .check) u ((check u).1.map .verdict) (check u).2 p := by
  -- Where a mark ends the check, it takes that mark and all the bytes before.
  have hmark (verdict : Bool) : Takes (.feed .check) u ((u.marks.atMark verdict).map .verdict)
      (u.drop (u.bytes.length + 1)) u.leading := by
    refine .of_explains ?_ ⟨verdict, ?_⟩
    · rw [← List.drop_drop, Unread.drop_length_bytes, u.items_leading]
    · rw [Unread.answer_leading, Unread.map_atMark]
  obtain ⟨p, -, hcheck⟩ := check_stream u
  rw [hcheck]
  cases u.bytes[p]? with
  | none => exact ⟨u.leading, hmark true⟩
  | some lead =>
    by_cases hle : p + width lead ≤ u.bytes.length
    · simp only [if_pos hle]
      refine ⟨⟨u.bytes.take (p + width lead), none⟩, .of_explains ?_ ⟨false, rfl⟩⟩
      have hdrop := Unread.drop_ofBytes_append hle u.marks
      rw [Unread.ofBytes_bytes_append_marks] at hdrop
      rw [hdrop, Portion.items_run, ← List.append_assoc, ← Unread.ofBytes_append,
        List.take_append_drop, Unread.ofBytes_bytes_append_marks]
    · simp only [if_neg hle]
      exact ⟨u.leading, hmark false⟩

theorem takes_onFeed [Feed σ ε] [LawfulFeed σ] (s : σ) (step : BufferedStep) :
    ∃ p, Takes step (Reader.unread s) (step.onFeed s).1 (Reader.unread (step.onFeed s).2) p := by
  have hcheck : ∃ p, Takes (.feed .check) (Reader.unread s) ((check s).1.map .verdict)
      (Reader.unread (check s).2) p := by
    have htakes := takes_check (Reader.unread s)
    rwa [← view_check s] at htakes
  match step with
  | .feed .skipAscii =>
    have htakes := takes_skipAscii (Reader.unread s)
    rwa [← LawfulFeed.skips s] at htakes
  | .feed (.read n) => exact (LawfulReader.serves n s).takes
  | .feed .check => exact hcheck
  | .checkReader =>
    obtain ⟨p, hp⟩ := hcheck
    exact ⟨p, hp.split, hp.fails_iff, hp.explains⟩
  | .rewrap => exact ⟨⟨[], none⟩, .of_explains rfl ⟨rfl, rfl⟩⟩

section Words
variable (f : ε → ε')

def Mark.mapError : Mark ε → Mark ε'
  | .eof => .eof
  | .error e => .error (f e)

def Portion.mapError (p : Portion ε) : Portion ε' := ⟨p.run, p.mark.map (Mark.mapError f)⟩

theorem Portion.items_mapError (p : Portion ε) : (p.mapError f).items = Unread.mapError f p.items := by
  obtain ⟨run, mark⟩ := p
  have hrun : Unread.mapError f (.ofBytes run) = .ofBytes run := List.map_map
  rw [Portion.items, Portion.items, Unread.mapError, List.map_append, ← Unread.mapError, hrun]
  match mark with
  | none | some .eof | some (.error e) => rfl

theorem Portion.answer_mapError {α : Type} (p : Portion ε) (a : α) :
    (p.mapError f).answer a = (p.answer a).mapError f := by
  obtain ⟨run, mark⟩ := p
  match mark with
  | none | some .eof | some (.error e) => rfl

theorem Explains.mapError {p : Portion ε} {left : Unread ε} {answer : Except ε Answer}
    {step : BufferedStep} (h : Explains p left answer step) :
    Explains (p.mapError f) (left.mapError f) (answer.mapError f) step := by
  match step with
  | .feed .skipAscii =>
    rcases h with ⟨ascii, lead, rfl, hascii, hlead, rfl⟩ | ⟨hascii, hend, rfl⟩
    · exact .inl ⟨ascii, lead, rfl, hascii, hlead, rfl⟩
    · refine .inr ⟨hascii, ?_, (p.answer_mapError f _).symm⟩
      intro hmark
      rw [hend (Option.map_eq_none_iff.mp hmark)]
      rfl
  | .feed (.read n) =>
    obtain ⟨hlen, halone, hnothing, rfl⟩ := h
    refine ⟨hlen, halone.imp_right Option.map_eq_none_iff.mpr, ?_, (p.answer_mapError f _).symm⟩
    intro hrun hmark
    refine (hnothing hrun (Option.map_eq_none_iff.mp hmark)).imp_right ?_
    rintro rfl
    rfl
  | .feed .check | .checkReader =>
    obtain ⟨verdict, rfl⟩ := h
    exact ⟨verdict, (p.answer_mapError f _).symm⟩
  | .rewrap =>
    obtain ⟨rfl, rfl⟩ := h
    exact ⟨rfl, rfl⟩

theorem Takes.mapError {step : BufferedStep} {u left : Unread ε} {answer : Except ε Answer}
    {p : Portion ε} (h : Takes step u answer left p) :
    Takes step (u.mapError f) (answer.mapError f) (left.mapError f) (p.mapError f) := by
  refine .of_explains ?_ (h.explains.mapError f)
  rw [h.split, p.items_mapError f, Unread.mapError, List.map_append]
  rfl

end Words

inductive Account : Unread ε → List BufferedStep → List (Except ε Answer × Unread ε) →
    List (Portion ε) → Prop
  | nil {u} : Account u [] [] []
  | cons {u step answer left p steps answers portions} : Takes step u answer left p →
      Account left steps answers portions →
      Account u (step :: steps) ((answer, left) :: answers) (p :: portions)

theorem Account.concat {u : Unread ε} {steps : List BufferedStep}
    {answers : List (Except ε Answer × Unread ε)} {portions : List (Portion ε)}
    (h : Account u steps answers portions) :
    u = portions.flatMap Portion.items ++ lastState u answers := by
  induction h with
  | nil => rfl
  | @cons u step answer left p steps answers portions htakes _ ih =>
    rw [lastState_cons, List.flatMap_cons, List.append_assoc]
    exact htakes.split.trans (congrArg (p.items ++ ·) ih)

namespace AnyFeed
variable [Reader ρ ReadError] [LawfulReader ρ]

theorem takes_perform (s : AnyFeed ρ) (step : BufferedStep) :
    ∃ p, Takes step s.stream (s.perform step).1 (s.perform step).2.stream p := by
  cases s with
  | inMemory feed | cycled feed =>
    obtain ⟨p, hp⟩ := takes_onFeed feed step
    exact ⟨p.mapError Empty.elim, hp.mapError Empty.elim⟩
  | script feed => exact takes_onFeed feed step
  | cursor feed | runs feed | block feed =>
    rw [perform, BufferedStep.perform_eq_onFeed]
    exact takes_onFeed feed step

theorem exists_account (s : AnyFeed ρ) (steps : List BufferedStep) :
    ∃ portions, Account s.stream steps ((session perform s steps).map (Prod.map id stream)) portions := by
  induction steps generalizing s with
  | nil => exact ⟨[], .nil⟩
  | cons step steps ih =>
    obtain ⟨p, hp⟩ := s.takes_perform step
    obtain ⟨portions, hportions⟩ := ih (s.perform step).2
    exact ⟨p :: portions, .cons hp hportions⟩

theorem session_conserves (s : AnyFeed ρ) (steps : List BufferedStep) :
    ∃ portions, Account s.stream steps ((session perform s steps).map (Prod.map id stream)) portions ∧
      s.stream = portions.flatMap Portion.items ++ (lastState s (session perform s steps)).stream := by
  obtain ⟨portions, hportions⟩ := s.exists_account steps
  refine ⟨portions, hportions, ?_⟩
  rw [← lastState_map stream]
  exact hportions.concat

theorem session_conserves_torn :
    let s : AnyFeed (Script ReadError) := .block ⟨⟨2, [0x61], ⟨[.data 0xC3 [0xA9, 0x62], .eof,
      .data 0xE2 [0x82], .error ⟨"Other", "torn"⟩, .data 0x80 [0x63]]⟩, Nat.two_pos⟩⟩
    let steps : List BufferedStep := [.feed (.read 0), .feed .skipAscii, .rewrap, .feed (.read 5),
      .feed (.read 1), .checkReader, .checkReader, .feed .check]
    LawfulReader (Script ReadError) ∧
      ∃ portions, Account s.stream steps ((session perform s steps).map (Prod.map id stream)) portions ∧
        s.stream = portions.flatMap Portion.items ++ (lastState s (session perform s steps)).stream := by
  intro s steps
  exact ⟨inferInstance, session_conserves s steps⟩

end AnyFeed
end StrictUtf8
