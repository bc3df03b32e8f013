import StrictUtf8.Feed.Check

/-! Sessions: steps taken one after the other on a single feed, which goes on with whatever is left
after a failure or a rejected text. -/

namespace StrictUtf8
variable {σ ρ ε : Type}

inductive Step where
  | skipAscii
  | read (size : Nat)
  | check
deriving DecidableEq, Repr

inductive Answer where
  | lead (byte : Option UInt8)
  | bytes (bytes : List UInt8)
  | verdict (wellFormed : Bool)
  | done
deriving DecidableEq, Repr

def Step.perform [Feed σ ε] (s : σ) : Step → Except ε Answer × σ
  | .skipAscii =>
    let (answer, s) := Feed.skipAscii s
    (answer.map .lead, s)
  | .read size =>
    let (answer, s) := Reader.read size s
    (answer.map .bytes, s)
  | .check =>
    let (answer, s) := StrictUtf8.check s
    (answer.map .verdict, s)

inductive BufferedStep where
  | feed (step : Step)
  | rewrap
  | checkReader
deriving DecidableEq, Repr

def BufferedStep.perform [BufferedReader ρ ε] (s : Buffered ρ) :
    BufferedStep → Except ε Answer × Buffered ρ
  | .feed step => step.perform s
  | .rewrap => (.ok .done, ⟨s.reader⟩)
  | .checkReader =>
    let (answer, reader) := checkBuffered s.reader
    (answer.map .verdict, ⟨reader⟩)

def session {τ α : Type} (perform : σ → τ → Except ε α × σ) (s : σ) :
    List τ → List (Except ε α × σ)
  | [] => []
  | step :: steps =>
    let after := perform s step
    after :: session perform after.2 steps

end StrictUtf8
