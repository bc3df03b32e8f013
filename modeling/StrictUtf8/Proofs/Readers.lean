import StrictUtf8.Proofs.Stream
import StrictUtf8.Reader.Block
import StrictUtf8.Reader.Cursor
import StrictUtf8.Reader.InMemory
import StrictUtf8.Reader.Recorded
import StrictUtf8.Reader.Script

/-! Every reader of the library keeps the laws of readers. -/

namespace StrictUtf8
variable {ρ ε : Type}

theorem Serve.take_run {n k : Nat} (hk : k ≤ n) (hpos : k = 0 → n = 0) {xs : List UInt8} (hxs : xs ≠ [])
    (u : Unread ε) : Serve n (.ofBytes xs ++ u) (.ok (xs.take k)) (.ofBytes (xs.drop k) ++ u) := by
  rcases Nat.eq_zero_or_pos k with rfl | hpos'
  · exact .idle (hpos rfl)
  · have htake : xs.take k ≠ [] := by
      intro h
      rcases List.take_eq_nil_iff.mp h with h | h
      · omega
      · exact hxs h
    have hrun : (.ofBytes xs ++ u : Unread ε) =
        .ofBytes (xs.take k) ++ (.ofBytes (xs.drop k) ++ u) := by
      rw [← List.append_assoc, ← Unread.ofBytes_append, List.take_append_drop]
    rw [hrun]
    exact .bytes htake (Nat.le_trans (List.length_take_le k xs) hk)

theorem Serve.take_all {n k : Nat} (hk : k ≤ n) (hpos : k = 0 → n = 0) (xs : List UInt8) :
    Serve (ε := ε) n (.ofBytes xs) (.ok (xs.take k)) (.ofBytes (xs.drop k)) := by
  by_cases hxs : xs = []
  · subst hxs
    rw [List.take_nil, List.drop_nil]
    exact .mark rfl
  · simpa only [List.append_nil] using Serve.take_run hk hpos hxs ([] : Unread ε)

theorem Show.all (xs : List UInt8) :
    Show (ε := ε) (.ofBytes xs) (.ok xs) (.ofBytes xs) := by
  by_cases hxs : xs = []
  · subst hxs
    exact .mark rfl
  · simpa only [List.append_nil] using @Show.bytes ε xs [] hxs

theorem Show.serve {u u' : Unread ε} {chunk : List UInt8} (h : Show u (.ok chunk) u') (n : Nat) :
    Serve n u (.ok (chunk.take n)) (u'.drop (chunk.take n).length) := by
  rcases h.cases with ⟨shown, rest, hne, hanswer, rfl, rfl⟩ | ⟨hu, hanswer, rfl⟩
  · obtain rfl := Except.ok.inj hanswer
    rw [Unread.drop_ofBytes_append (List.length_take_le' n chunk), List.length_take,
      ← List.drop_eq_drop_min]
    exact Serve.take_run (Nat.le_refl n) id hne rest
  · obtain rfl := Unread.eq_of_atMark_eq_ok hanswer.symm
    rw [List.take_nil, hanswer]
    exact .mark hu

theorem Show.serve_error {u u' : Unread ε} {e : ε} (h : Show u (.error e) u') (n : Nat) :
    Serve n u (.error e) u' := by
  rcases h.cases with ⟨shown, rest, -, hanswer, -, -⟩ | ⟨hu, hanswer, rfl⟩
  · simp only [reduceCtorEq] at hanswer
  · exact hanswer ▸ Serve.mark hu

instance : LawfulReader InMemory where
  serves n r := Serve.take_all (Nat.le_refl n) id r.rest

namespace Cycled

theorem min_nextSize_eq_zero {n : Nat} {c : Cycled} (h : min (c.nextSize n) n = 0) : n = 0 := by
  unfold nextSize at h
  split at h <;> omega

instance : LawfulReader Cycled where
  serves n c := Serve.take_all (Nat.min_le_right (c.nextSize n) n) min_nextSize_eq_zero c.rest

end Cycled

namespace Cursor

instance : LawfulBufferedReader Cursor where
  serves n c := by
    change Serve n (.ofBytes c.rest) (.ok (c.rest.take n))
      (.ofBytes (c.rest.drop (c.rest.take n).length))
    rw [List.length_take, ← List.drop_eq_drop_min]
    exact Serve.take_all (Nat.le_refl n) id c.rest
  shows c := Show.all c.rest
  consumes {r r' chunk n} h hn := (Unread.drop_ofBytes n r'.rest).symm

end Cursor

namespace Script

theorem serve_read (n : Nat) (s : Script ε) :
    Serve n s.unread (s.read n).1 (s.read n).2.unread := by
  obtain ⟨events⟩ := s
  unfold read
  split
  next h => exact .idle h
  next h =>
    match events with
    | [] => exact .mark rfl
    | .data head tail :: events =>
      simp only [unread_push]
      exact Serve.take_run (Nat.le_refl n) id (List.cons_ne_nil head tail) _
    | .eof :: events => exact .mark rfl
    | .error e :: events => exact .mark rfl

theorem show_fill (s : Script ε) : Show s.unread s.fill.1 s.fill.2.unread := by
  obtain ⟨events⟩ := s
  match events with
  | [] => exact .mark rfl
  | .data head tail :: events => exact .bytes (List.cons_ne_nil head tail)
  | .eof :: events => exact .mark rfl
  | .error e :: events => exact .mark rfl

theorem consume_zero (s : Script ε) : s.consume 0 = s := by
  obtain ⟨events⟩ := s
  match events with
  | [] | .data _ _ :: _ | .eof :: _ | .error _ :: _ => rfl

theorem unread_consume {s s' : Script ε} {chunk : List UInt8} {n : Nat}
    (h : s.fill = (.ok chunk, s')) (hn : n ≤ chunk.length) :
    (s'.consume n).unread = s'.unread.drop n := by
  obtain ⟨events⟩ := s
  match events with
  | .data head tail :: events =>
    simp only [fill, Prod.mk.injEq, Except.ok.injEq] at h
    obtain ⟨rfl, rfl⟩ := h
    simp only [consume, unread_push, unread_cons, Event.items]
    exact (Unread.drop_ofBytes_append hn _).symm
  | [] | .eof :: events =>
    simp only [fill, Prod.mk.injEq, Except.ok.injEq] at h
    obtain ⟨rfl, rfl⟩ := h
    obtain rfl : n = 0 := Nat.le_zero.mp hn
    exact congrArg unread (consume_zero _)
  | .error e :: events => simp [fill] at h

instance : LawfulBufferedReader (Script ε) where
  serves := serve_read
  shows := show_fill
  consumes := unread_consume

end Script

namespace Block
variable [Reader ρ ε]

theorem unread_of_held_nil {b : Block ρ} (h : b.held = []) : b.unread = Reader.unread b.reader := by
  rw [unread, h]
  rfl

theorem unread_consume {b : Block ρ} {n : Nat} (hn : n ≤ b.held.length) :
    (b.consume n).unread = b.unread.drop n := (Unread.drop_ofBytes_append hn _).symm

theorem fill_of_held_ne_nil {b : Block ρ} (h : b.held ≠ []) : b.fill = (.ok b.held, b) := by
  unfold fill
  split
  next hheld => exact (h hheld).elim
  next => rfl

theorem held_of_fill_error {b b' : Block ρ} {e : ε} (h : b.fill = (.error e, b')) : b'.held = [] := by
  by_cases hheld : b.held = []
  · unfold fill at h
    rw [hheld] at h
    rcases hread : Reader.read b.capacity b.reader with ⟨answer, r⟩
    simp only [hread] at h
    cases answer with
    | ok chunk => cases (Prod.mk.inj h).1
    | error e' =>
      obtain ⟨-, rfl⟩ := Prod.mk.inj h
      rfl
  · rw [fill_of_held_ne_nil hheld] at h
    cases (Prod.mk.inj h).1

variable [LawfulReader ρ]

theorem show_fill (b : Block ρ) : Show b.unread b.fill.1 b.fill.2.unread := by
  unfold fill
  split
  next hheld =>
    have hserve := (LawfulReader.serves b.capacity b.reader).cases_of_pos b.capacity_pos
    rw [unread_of_held_nil hheld]
    rcases hread : Reader.read b.capacity b.reader with ⟨answer, reader⟩
    rw [hread] at hserve
    rcases hserve with ⟨served, hne, -, rfl, hu⟩ | ⟨hu, rfl, hrest⟩
    · rw [hu]
      exact .bytes hne
    · have hmark := Show.mark hu
      rw [← hrest] at hmark
      rcases Unread.atMark_cases (Reader.unread b.reader) with hok | ⟨e, herror⟩
      · rw [hok] at hmark ⊢
        exact hmark
      · rw [herror] at hmark ⊢
        change Show _ _ (unread { b with reader })
        rwa [unread_of_held_nil (b := { b with reader }) hheld]
  next held hheld => exact .bytes hheld

theorem serve_read (n : Nat) (b : Block ρ) : Serve n b.unread (b.read n).1 (b.read n).2.unread := by
  unfold read
  split
  -- A large request on an empty buffer goes past it.
  next h =>
    change Serve n b.unread _ (unread { b with reader := (Reader.read n b.reader).2 })
    rw [unread_of_held_nil h.1,
      unread_of_held_nil (b := { b with reader := (Reader.read n b.reader).2 }) h.1]
    exact LawfulReader.serves n b.reader
  next =>
    have hshow := show_fill b
    rcases hfill : b.fill with ⟨answer, b'⟩
    rw [hfill] at hshow
    cases answer with
    | error e => exact hshow.serve_error n
    | ok chunk =>
      have hle : (chunk.take n).length ≤ b'.held.length :=
        held_of_fill hfill ▸ List.length_take_le' n chunk
      rw [unread_consume hle]
      exact hshow.serve n

instance : LawfulBufferedReader (Block ρ) where
  serves := serve_read
  shows := show_fill
  consumes h hn := unread_consume (held_of_fill h ▸ hn)

end Block

instance [Reader ρ ε] [LawfulReader ρ] : LawfulReader (Recorded ρ ε) where
  serves n r := LawfulReader.serves n r.reader

end StrictUtf8
