import StrictUtf8.Feed.Session
import StrictUtf8.Proofs.Verdicts

/-! Sessions on feeds of every kind. A skip or a check answers by the stream alone, and leaves a stream
that depends on nothing else, so feeds with one stream cannot be told apart by such steps. -/

namespace StrictUtf8
open Sequence
variable {σ ρ ε ε' α β τ : Type}

def Item.mapError (f : ε → ε') : Item ε → Item ε'
  | .byte b => .byte b
  | .eof => .eof
  | .error e => .error (f e)

namespace Unread

def mapError (f : ε → ε') (u : Unread ε) : Unread ε' := u.map (Item.mapError f)

theorem drop_mapError (f : ε → ε') (u : Unread ε) (n : Nat) :
    (u.mapError f).drop n = mapError f (u.drop n) := List.map_drop.symm

theorem bytes_mapError (f : ε → ε') (u : Unread ε) : (u.mapError f).bytes = u.bytes := by
  induction u with
  | nil => rfl
  | cons item u ih =>
    cases item with
    | byte b => exact congrArg (b :: ·) ih
    | eof | error e => rfl

theorem marks_mapError (f : ε → ε') (u : Unread ε) : (u.mapError f).marks = u.marks.mapError f := by
  induction u with
  | nil => rfl
  | cons item u ih =>
    cases item with
    | byte b => exact ih
    | eof | error e => rfl

theorem atMark_mapError (f : ε → ε') (u : Unread ε) (answer : α) :
    (u.mapError f).atMark answer = (u.atMark answer).mapError f := by
  match u with
  | [] | .byte b :: rest | .eof :: rest | .error e :: rest => rfl

theorem skipAscii_mapError (f : ε → ε') (u : Unread ε) :
    (u.mapError f).skipAscii = u.skipAscii.map (.mapError f) (mapError f) := by
  induction u with
  | nil => rfl
  | cons item u ih =>
    cases item with
    | byte b =>
      change skipAscii (.byte b :: mapError f u) = _
      cases hascii : isAscii b with
      | true => rw [skipAscii, if_pos hascii, skipAscii, if_pos hascii, ih]
      | false =>
        rw [skipAscii_lead hascii, skipAscii_lead hascii]
        rfl
    | eof | error e => rfl

theorem check_mapError (f : ε → ε') (u : Unread ε) :
    check (u.mapError f) = (check u).map (.mapError f) (mapError f) := by
  obtain ⟨p, hp, hcheck⟩ := check_stream u
  obtain ⟨q, hq, hcheck'⟩ := check_stream (u.mapError f)
  rw [bytes_mapError] at hq hcheck'
  obtain rfl := hp.unique hq
  -- Both checks end at the same place, and only an answer at a mark can be a failure.
  rw [hcheck, hcheck', marks_mapError, drop_mapError]
  cases u.bytes[p]? with
  | none => exact congrArg (·, _) (atMark_mapError f u.marks true)
  | some lead =>
    by_cases hle : p + width lead ≤ u.bytes.length
    · simp only [if_pos hle, drop_mapError]
      rfl
    · simp only [if_neg hle]
      exact congrArg (·, _) (atMark_mapError f u.marks false)

end Unread

/-- The step on any feed. Where there is no reader to take out, nothing happens. -/
def BufferedStep.onFeed [Feed σ ε] (s : σ) : BufferedStep → Except ε Answer × σ
  | .feed step => step.perform s
  | .checkReader => Step.check.perform s
  | .rewrap => (.ok .done, s)

theorem BufferedStep.perform_eq_onFeed [BufferedReader ρ ε] (s : Buffered ρ) (step : BufferedStep) :
    step.perform s = step.onFeed s := by
  cases step with
  | feed step | checkReader | rewrap => rfl

def BufferedStep.isRead : BufferedStep → Bool
  | .feed (.read _) => true
  | _ => false

/-- A step other than a plain read; how much one of those serves depends on how the bytes are grouped. -/
abbrev Move := { step : BufferedStep // step.isRead = false }

namespace Move

def perform [Feed σ ε] (s : σ) (m : Move) : Except ε Answer × σ := m.val.onFeed s

/-- Checking the reader is a check; wrapping it anew asks for nothing. -/
def demand? (m : Move) : Option Step :=
  match m.val with
  | .feed step => some step
  | .checkReader => some .check
  | .rewrap => none

theorem perform_of_demand [Feed σ ε] {m : Move} {d : Step} (h : m.demand? = some d) (s : σ) :
    m.perform s = d.perform s := by
  match m with
  | ⟨.feed step, _⟩ | ⟨.checkReader, _⟩ =>
    obtain rfl := Option.some.inj h
    rfl
  | ⟨.rewrap, _⟩ => cases h

theorem perform_of_no_demand [Feed σ ε] {m : Move} (h : m.demand? = none) (s : σ) :
    m.perform s = (.ok .done, s) := by
  match m with
  | ⟨.feed step, _⟩ | ⟨.checkReader, _⟩ => cases h
  | ⟨.rewrap, _⟩ => rfl

theorem view_perform [Feed σ ε] [LawfulFeed σ] (s : σ) (m : Move) :
    view (m.perform s) = m.perform (Reader.unread s) := by
  match m with
  | ⟨.feed .skipAscii, _⟩ =>
    exact congrArg (Prod.map (Except.map Answer.lead) id) (LawfulFeed.skips s)
  | ⟨.feed .check, _⟩ | ⟨.checkReader, _⟩ =>
    exact congrArg (Prod.map (Except.map Answer.verdict) id) (view_check s)
  | ⟨.feed (.read n), hread⟩ => cases hread
  | ⟨.rewrap, _⟩ => rfl

end Move

theorem map_mapError (f : ε → ε') (g : α → β) (x : Except ε α) :
    (x.mapError f).map g = (x.map g).mapError f := by
  cases x with
  | ok a | error e => rfl

theorem Move.perform_mapError (f : ε → ε') (u : Unread ε) (m : Move) :
    m.perform (u.mapError f) = (m.perform u).map (.mapError f) (.mapError f) := by
  match m with
  | ⟨.feed .skipAscii, _⟩ =>
    change Prod.map (Except.map Answer.lead) id (Unread.skipAscii (u.mapError f)) = _
    rw [Unread.skipAscii_mapError]
    exact congrArg (·, _) (map_mapError f Answer.lead u.skipAscii.1)
  | ⟨.feed .check, _⟩ | ⟨.checkReader, _⟩ =>
    change Prod.map (Except.map Answer.verdict) id (StrictUtf8.check (u.mapError f)) = _
    rw [Unread.check_mapError]
    exact congrArg (·, _) (map_mapError f Answer.verdict (StrictUtf8.check u).1)
  | ⟨.feed (.read n), hread⟩ => cases hread
  | ⟨.rewrap, _⟩ => rfl

def isAnswer : Except ε Answer × σ → Bool
  | (.ok .done, _) => false
  | _ => true

theorem isAnswer_map {x : Except ε α} {f : α → Answer} (hf : ∀ a, f a ≠ .done) (left : σ) :
    isAnswer (x.map f, left) = true := by
  cases x with
  | error e => rfl
  | ok a =>
    change isAnswer (.ok (f a), left) = true
    unfold isAnswer
    split
    next h => exact (hf a (Except.ok.inj (Prod.mk.inj h).1)).elim
    next => rfl

theorem Step.isAnswer_perform [Feed σ ε] (s : σ) (d : Step) : isAnswer (d.perform s) = true := by
  cases d with
  | skipAscii | read n | check => exact isAnswer_map (fun _ h => by cases h) _

def lastState (s : σ) (answers : List (Except ε α × σ)) : σ := answers.getLast?.elim s Prod.snd

theorem lastState_cons (s : σ) (out : Except ε α × σ) (answers : List (Except ε α × σ)) :
    lastState s (out :: answers) = lastState out.2 answers := by
  rw [lastState, lastState, List.getLast?_cons]
  cases answers.getLast? with
  | none | some last => rfl

theorem session_map {σ' : Type} {perform : σ → τ → Except ε α × σ}
    {perform' : σ' → τ → Except ε α × σ'} {g : σ → σ'}
    (h : ∀ s step, (perform s step).map id g = perform' (g s) step) (s : σ) (steps : List τ) :
    (session perform s steps).map (Prod.map id g) = session perform' (g s) steps := by
  induction steps generalizing s with
  | nil => rfl
  | cons step steps ih =>
    rw [session, session, List.map_cons, ih, ← h]
    rfl

theorem lastState_map {σ' : Type} (g : σ → σ') (s : σ) (answers : List (Except ε α × σ)) :
    lastState (g s) (answers.map (Prod.map id g)) = g (lastState s answers) := by
  rw [lastState, lastState, List.getLast?_map]
  cases answers.getLast? with
  | none | some last => rfl

def demands (moves : List Move) : List Step := moves.filterMap Move.demand?

section Asked
variable [Feed σ ε]

theorem session_demands (s : σ) (moves : List Move) :
    (session Move.perform s moves).filter isAnswer = session Step.perform s (demands moves) := by
  induction moves generalizing s with
  | nil => rfl
  | cons m moves ih =>
    cases hm : m.demand? with
    | none =>
      rw [session, Move.perform_of_no_demand hm, demands, List.filterMap_cons_none hm, ← demands, ← ih]
      rfl
    | some d =>
      rw [session, Move.perform_of_demand hm, demands, List.filterMap_cons_some hm, ← demands, session,
        List.filter_cons_of_pos (d.isAnswer_perform s), ih]

theorem lastState_demands (s : σ) (moves : List Move) :
    lastState s (session Move.perform s moves) = lastState s (session Step.perform s (demands moves)) := by
  induction moves generalizing s with
  | nil => rfl
  | cons m moves ih =>
    cases hm : m.demand? with
    | none =>
      rw [session, Move.perform_of_no_demand hm, lastState_cons, ih, demands, demands,
        List.filterMap_cons_none hm]
    | some d =>
      rw [session, Move.perform_of_demand hm, lastState_cons, ih, demands, demands,
        List.filterMap_cons_some hm, session, lastState_cons]

end Asked

inductive AnyFeed (ρ : Type) where
  | inMemory (feed : InMemory)
  | script (feed : Bytewise (Script ReadError))
  | cycled (feed : Bytewise Cycled)
  | cursor (feed : Buffered Cursor)
  | runs (feed : Buffered (Script ReadError))
  | block (feed : Buffered (Block ρ))

namespace AnyFeed
variable [Reader ρ ReadError]

def stream : AnyFeed ρ → Unread ReadError
  | .inMemory feed => .mapError Empty.elim (Reader.unread feed)
  | .script feed => Reader.unread feed
  | .cycled feed => .mapError Empty.elim (Reader.unread feed)
  | .cursor feed => Reader.unread feed
  | .runs feed => Reader.unread feed
  | .block feed => Reader.unread feed

def perform : AnyFeed ρ → BufferedStep → Except ReadError Answer × AnyFeed ρ
  | .inMemory feed, step => (step.onFeed feed).map (.mapError Empty.elim) .inMemory
  | .script feed, step => (step.onFeed feed).map id .script
  | .cycled feed, step => (step.onFeed feed).map (.mapError Empty.elim) .cycled
  | .cursor feed, step => (step.perform feed).map id .cursor
  | .runs feed, step => (step.perform feed).map id .runs
  | .block feed, step => (step.perform feed).map id .block

def move (s : AnyFeed ρ) (m : Move) : Except ReadError Answer × AnyFeed ρ := s.perform m.val

theorem stream_move [LawfulReader ρ] (s : AnyFeed ρ) (m : Move) :
    (s.move m).map id stream = m.perform s.stream := by
  cases s with
  | inMemory feed | cycled feed =>
    rw [stream, Move.perform_mapError, ← Move.view_perform]
    rfl
  | script feed => exact m.view_perform feed
  | cursor feed | runs feed | block feed =>
    rw [move, perform, BufferedStep.perform_eq_onFeed]
    exact m.view_perform feed

def outcomes (s : AnyFeed ρ) (moves : List Move) : List (Except ReadError Answer × Unread ReadError) :=
  ((session move s moves).map (Prod.map id stream)).filter isAnswer

def after (s : AnyFeed ρ) (moves : List Move) : AnyFeed ρ := lastState s (session move s moves)

variable [LawfulReader ρ]

theorem outcomes_eq (s : AnyFeed ρ) (moves : List Move) :
    s.outcomes moves = session Step.perform s.stream (demands moves) := by
  rw [outcomes, session_map stream_move, session_demands]

theorem stream_after (s : AnyFeed ρ) (moves : List Move) : (s.after moves).stream =
    lastState s.stream (session Step.perform s.stream (demands moves)) := by
  rw [after, ← lastState_map stream, session_map stream_move, lastState_demands]

theorem outcomes_eq_of_stream_eq {ρ' : Type} [Reader ρ' ReadError] [LawfulReader ρ'] {s : AnyFeed ρ}
    {t : AnyFeed ρ'} (h : s.stream = t.stream) {moves moves' : List Move}
    (hmoves : demands moves = demands moves') :
    s.outcomes moves = t.outcomes moves' ∧ (s.after moves).stream = (t.after moves').stream := by
  rw [outcomes_eq, outcomes_eq, stream_after, stream_after, h, hmoves]
  exact ⟨rfl, rfl⟩

theorem outcomes_eq_of_regrouped :
    let s : AnyFeed Cursor := .script ⟨⟨[.data 0x61 [0xC3], .data 0xA9 [0x62], .eof, .data 0xE2 [0x82],
      .error ⟨"Other", "torn"⟩, .data 0x80 []]⟩⟩
    let t : AnyFeed (Script ReadError) := .block ⟨⟨2, [0x61], ⟨[.data 0xC3 [0xA9, 0x62], .eof,
      .data 0xE2 [], .data 0x82 [], .error ⟨"Other", "torn"⟩, .data 0x80 []]⟩, Nat.two_pos⟩⟩
    let moves : List Move := [⟨.feed .check, rfl⟩, ⟨.feed .check, rfl⟩, ⟨.feed .skipAscii, rfl⟩]
    let moves' : List Move := [⟨.checkReader, rfl⟩, ⟨.rewrap, rfl⟩, ⟨.feed .check, rfl⟩, ⟨.rewrap, rfl⟩,
      ⟨.feed .skipAscii, rfl⟩, ⟨.rewrap, rfl⟩]
    s.stream = t.stream ∧ demands moves = demands moves' ∧
      s.outcomes moves = t.outcomes moves' ∧ (s.after moves).stream = (t.after moves').stream := by
  intro s t moves moves'
  have hst : s.stream = t.stream := rfl
  have hmoves : demands moves = demands moves' := rfl
  exact ⟨hst, hmoves, outcomes_eq_of_stream_eq hst hmoves⟩

end AnyFeed
end StrictUtf8
