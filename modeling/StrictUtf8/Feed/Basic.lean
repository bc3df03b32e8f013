import StrictUtf8.Sequence.Basic
import StrictUtf8.Reader.InMemory

/-! Feeds: what the well-formedness check takes its bytes from. A feed is a reader that can pass over
ASCII. `Bytewise` does so with one-byte reads, `Buffered` a whole buffer at a time. -/

namespace StrictUtf8
open Sequence

/-- A reader that can skip ASCII. `skipAscii` consumes ASCII bytes up to and including the next other
byte and returns that byte, or `none` at the end of input. -/
class Feed (σ : Type) (ε : outParam Type) extends Reader σ ε where
  skipAscii : σ → Except ε (Option UInt8) × σ
  length_skipAscii : ∀ {s s' lead}, skipAscii s = (.ok (some lead), s') →
    (unread s').length < (unread s).length

namespace InMemory

def skipAscii (r : InMemory) : Except Empty (Option UInt8) × InMemory :=
  match r.rest.dropWhile isAscii with
  | [] => (.ok none, ⟨[]⟩)
  | lead :: rest => (.ok (some lead), ⟨rest⟩)

instance : Feed InMemory Empty where
  skipAscii := skipAscii
  length_skipAscii {s s' lead} h := by
    have hs := (List.dropWhile_suffix isAscii (l := s.rest)).length_le
    unfold skipAscii at h
    split at h
    · simp at h
    next rest hd =>
      simp only [Prod.mk.injEq, Except.ok.injEq, Option.some.injEq] at h
      obtain ⟨rfl, rfl⟩ := h
      simp only [hd, List.length_cons] at hs
      simp only [Reader.unread, Unread.length_ofBytes]
      exact hs

end InMemory

structure Bytewise (ρ : Type) where
  reader : ρ

namespace Bytewise
variable {ρ ε : Type} [Reader ρ ε]

def skip (r : ρ) : Except ε (Option UInt8) × ρ :=
  match _h : Reader.read 1 r with
  | (.error e, r') => (.error e, r')
  | (.ok [], r') => (.ok none, r')
  | (.ok (byte :: _), r') => if isAscii byte then skip r' else (.ok (some byte), r')
termination_by (Reader.unread r).length
decreasing_by
  have := Reader.length_read 1 r
  simp only [_h, servedCount_ok, List.length_cons] at this
  omega

theorem length_skip {r r' : ρ} {lead : UInt8} (h : skip r = (.ok (some lead), r')) :
    (Reader.unread r').length < (Reader.unread r).length := by
  fun_induction skip r with
  | case1 => simp at h
  | case2 => simp at h
  | case3 r byte bytes r₁ hr _ ih =>
    have := Reader.length_read 1 r
    simp only [hr, servedCount_ok, List.length_cons] at this
    have := ih h
    omega
  | case4 r byte bytes r₁ hr _ =>
    have := Reader.length_read 1 r
    simp only [hr, servedCount_ok, List.length_cons] at this
    simp only [Prod.mk.injEq] at h
    rw [← h.2]
    omega

instance : Feed (Bytewise ρ) ε where
  unread s := Reader.unread s.reader
  read n s :=
    let (answer, reader) := Reader.read n s.reader
    (answer, ⟨reader⟩)
  length_read n s := Reader.length_read n s.reader
  skipAscii s :=
    let (answer, reader) := skip s.reader
    (answer, ⟨reader⟩)
  length_skipAscii h := by
    obtain ⟨hlead, rfl⟩ := Prod.mk.inj h
    exact length_skip (Prod.ext hlead rfl)

end Bytewise

structure Buffered (ρ : Type) where
  reader : ρ

namespace Buffered
variable {ρ ε : Type} [BufferedReader ρ ε]

def skip (r : ρ) : Except ε (Option UInt8) × ρ :=
  match _h : BufferedReader.fill r with
  | (.error e, r') => (.error e, r')
  | (.ok [], r') => (.ok none, r')
  | (.ok (first :: chunk), r') =>
    match (first :: chunk).dropWhile isAscii with
    | lead :: _ =>
      (.ok (some lead), BufferedReader.consume (((first :: chunk).takeWhile isAscii).length + 1) r')
    | [] => skip (BufferedReader.consume (first :: chunk).length r')
termination_by (Reader.unread r).length
decreasing_by
  have h₁ := BufferedReader.length_fill r
  have h₂ := BufferedReader.length_consume _h (Nat.le_refl _)
  simp only [_h, List.length_cons] at h₁ h₂
  simp only [List.length_cons]
  omega

theorem length_skip {r r' : ρ} {lead : UInt8} (h : skip r = (.ok (some lead), r')) :
    (Reader.unread r').length < (Reader.unread r).length := by
  fun_induction skip r with
  | case1 => simp at h
  | case2 => simp at h
  | case3 r first chunk r₁ hf lead' rest hd =>
    have h₁ := BufferedReader.length_fill r
    have hl : ((first :: chunk).takeWhile isAscii).length + 1 ≤ (first :: chunk).length := by
      have := congrArg List.length (List.takeWhile_append_dropWhile (p := isAscii) (l := first :: chunk))
      simp only [hd, List.length_append, List.length_cons] at this
      simp only [List.length_cons]
      omega
    have h₂ := BufferedReader.length_consume hf hl
    simp only [hf] at h₁
    simp only [Prod.mk.injEq] at h
    rw [← h.2]
    omega
  | case4 r first chunk r₁ hf hd ih =>
    have h₁ := BufferedReader.length_fill r
    have h₂ := BufferedReader.length_consume hf (Nat.le_refl _)
    simp only [hf] at h₁
    have := ih h
    omega

instance : Feed (Buffered ρ) ε where
  unread s := Reader.unread s.reader
  read n s :=
    let (answer, reader) := Reader.read n s.reader
    (answer, ⟨reader⟩)
  length_read n s := Reader.length_read n s.reader
  skipAscii s :=
    let (answer, reader) := skip s.reader
    (answer, ⟨reader⟩)
  length_skipAscii h := by
    obtain ⟨hlead, rfl⟩ := Prod.mk.inj h
    exact length_skip (Prod.ext hlead rfl)

end Buffered
end StrictUtf8
