import StrictUtf8.Feed.Basic
import StrictUtf8.Reader.Block

/-! The streaming check. Bytes are pulled lazily: no request goes past the end of the sequence being
read, and nothing is read after an ill-formed one. -/

namespace StrictUtf8
open Sequence
variable {σ ε : Type}

/-- The next `n` bytes of a reader, gathered over short reads; `none` if the input ends before. -/
def collect [Reader σ ε] (n : Nat) (s : σ) : Except ε (Option (List UInt8)) × σ :=
  if n = 0 then (.ok (some []), s)
  else match Reader.read n s with
    | (.error e, s) => (.error e, s)
    | (.ok [], s) => (.ok none, s)
    | (.ok (byte :: bytes), s) =>
      let (answer, s) := collect (n - (bytes.length + 1)) s
      (answer.map (·.map (byte :: bytes ++ ·)), s)
termination_by n

theorem length_collect [Reader σ ε] (n : Nat) (s : σ) :
    (Reader.unread (collect n s).2).length ≤ (Reader.unread s).length := by
  fun_induction collect n s with
  | case1 => simp
  | case2 n s _ e s' h | case3 n s _ s' h =>
    have := Reader.length_read n s
    simp only [h] at this ⊢
    omega
  | case4 n s _ byte bytes s' h answer s'' hc ih =>
    have := Reader.length_read n s
    simp only [h] at this
    simp only [hc] at ih ⊢
    omega

def check [Feed σ ε] (s : σ) : Except ε Bool × σ :=
  match _h₁ : Feed.skipAscii s with
  | (.error e, s₁) => (.error e, s₁)
  | (.ok none, s₁) => (.ok true, s₁)
  | (.ok (some lead), s₁) =>
    if width lead = 1 then (.ok false, s₁)
    else match _h₂ : collect (width lead - 1) s₁ with
      | (.error e, s₂) => (.error e, s₂)
      | (.ok none, s₂) => (.ok false, s₂)
      | (.ok (some trailing), s₂) =>
        if completes lead trailing then check s₂ else (.ok false, s₂)
termination_by (Reader.unread s).length
decreasing_by
  have := Feed.length_skipAscii _h₁
  have := length_collect (width lead - 1) s₁
  simp only [_h₂] at this
  omega

def checkBuffered {ρ : Type} [BufferedReader ρ ε] (reader : ρ) : Except ε Bool × ρ :=
  let (verdict, feed) := check (Buffered.mk reader)
  (verdict, feed.reader)

structure BufferSettings where
  /-- The capacity of the buffer; zero counts as one. -/
  capacity : UInt64 := 8192
deriving DecidableEq, Repr

/-- The buffer is dropped afterwards, together with the bytes it has read ahead. -/
def checkUnbuffered {ρ ε : Type} [Reader ρ ε] (settings : BufferSettings) (reader : ρ) :
    Except ε Bool × ρ :=
  let (verdict, block) := checkBuffered (Block.wrap settings.capacity.toNat reader)
  (verdict, block.reader)

end StrictUtf8
