import StrictUtf8.Feed.Basic
import StrictUtf8.Proofs.Readers

/-! Feeds seen through their streams. A stream is a feed itself, the plainest one, and a lawful feed is
one that skips ASCII as its stream does. -/

namespace StrictUtf8
open Sequence
variable {σ ρ ε α : Type}

namespace Sequence
variable {bytes rest : List UInt8} {lead : UInt8}

theorem ascii_takeWhile (bytes : List UInt8) : ∀ b ∈ bytes.takeWhile isAscii, isAscii b = true :=
  List.all_eq_true.mp List.all_takeWhile

theorem ascii_of_dropWhile_nil (h : bytes.dropWhile isAscii = []) : ∀ b ∈ bytes, isAscii b = true := by
  have hsplit := List.takeWhile_append_dropWhile (p := isAscii) (l := bytes)
  rw [h, List.append_nil] at hsplit
  exact hsplit ▸ ascii_takeWhile bytes

theorem split_of_dropWhile_cons (h : bytes.dropWhile isAscii = lead :: rest) :
    bytes = bytes.takeWhile isAscii ++ lead :: rest ∧ isAscii lead = false := by
  have hsplit := List.takeWhile_append_dropWhile (p := isAscii) (l := bytes)
  have hhead := List.head?_dropWhile_not isAscii bytes
  rw [h] at hsplit hhead
  exact ⟨hsplit.symm, hhead⟩

end Sequence

namespace Unread

/-- Serves one byte at a time. -/
def read (n : Nat) (u : Unread ε) : Except ε (List UInt8) × Unread ε :=
  if n = 0 then (.ok [], u)
  else match u with
    | .byte b :: rest => (.ok [b], rest)
    | u => (u.atMark [], u.drop 1)

def skipAscii : Unread ε → Except ε (Option UInt8) × Unread ε
  | .byte b :: rest => if isAscii b then skipAscii rest else (.ok (some b), rest)
  | u => (u.atMark none, u.drop 1)

theorem serve_read (n : Nat) (u : Unread ε) : Serve n u (u.read n).1 (u.read n).2 := by
  unfold read
  split
  next h => exact .idle h
  next h =>
    match u with
    | .byte b :: rest => exact .bytes (List.cons_ne_nil b []) (Nat.pos_of_ne_zero h)
    | [] | .eof :: rest | .error e :: rest => exact .mark rfl

theorem skipAscii_append {xs : List UInt8} (hxs : ∀ b ∈ xs, isAscii b = true) (u : Unread ε) :
    (ofBytes xs ++ u).skipAscii = u.skipAscii := by
  induction xs with
  | nil => rfl
  | cons b xs ih =>
    rw [List.forall_mem_cons] at hxs
    rw [ofBytes_cons, List.cons_append, skipAscii, if_pos hxs.1, ih hxs.2]

theorem skipAscii_lead {lead : UInt8} (h : isAscii lead = false) (u : Unread ε) :
    skipAscii (.byte lead :: u) = (.ok (some lead), u) := by
  rw [skipAscii, h]
  rfl

theorem skipAscii_run (xs : List UInt8) (u : Unread ε) :
    (ofBytes xs ++ u).skipAscii =
      match xs.dropWhile isAscii with
      | [] => u.skipAscii
      | lead :: rest => (.ok (some lead), ofBytes rest ++ u) := by
  have hsplit : (ofBytes xs ++ u : Unread ε) =
      ofBytes (xs.takeWhile isAscii) ++ (ofBytes (xs.dropWhile isAscii) ++ u) := by
    rw [← List.append_assoc, ← ofBytes_append, List.takeWhile_append_dropWhile]
  rw [hsplit, skipAscii_append (ascii_takeWhile xs)]
  cases hd : xs.dropWhile isAscii with
  | nil => rfl
  | cons lead rest => exact skipAscii_lead (split_of_dropWhile_cons hd).2 (ofBytes rest ++ u)

theorem skipAscii_of_mark {u u' : Unread ε} {answer : Except ε (List UInt8)} (hu : u.bytes = [])
    (hanswer : answer = u.atMark []) (hrest : u' = u.drop 1) :
    u.skipAscii = (answer.map fun _ => none, u') := by
  subst hanswer hrest
  rw [map_atMark]
  match u with
  | .byte b :: rest => simp [bytes] at hu
  | [] | .eof :: rest | .error e :: rest => rfl

theorem length_skipAscii {u u' : Unread ε} {lead : UInt8} (h : u.skipAscii = (.ok (some lead), u')) :
    u'.length < u.length := by
  induction u with
  | nil => cases h
  | cons item rest ih =>
    cases item with
    | byte b =>
      rw [skipAscii] at h
      split at h
      · exact Nat.lt_succ_of_lt (ih h)
      · obtain ⟨-, rfl⟩ := Prod.mk.inj h
        exact Nat.lt_succ_self _
    | eof | error e => cases h

end Unread

theorem Serve.length_le {n : Nat} {u u' : Unread ε} {answer : Except ε (List UInt8)}
    (h : Serve n u answer u') : servedCount answer + u'.length ≤ u.length := by
  cases h with
  | idle => exact Nat.le_of_eq (Nat.zero_add _)
  | bytes hne hlen =>
    apply Nat.le_of_eq
    rw [servedCount_ok, List.length_append, Unread.length_ofBytes]
  | mark hu =>
    rw [List.length_drop]
    rcases Unread.atMark_cases u with hok | ⟨e, herror⟩
    · rw [hok, servedCount_ok, List.length_nil]
      omega
    · rw [herror, servedCount_error]
      omega

instance : Feed (Unread ε) ε where
  unread u := u
  read := Unread.read
  length_read n u := (u.serve_read n).length_le
  skipAscii := Unread.skipAscii
  length_skipAscii := Unread.length_skipAscii

def view [Reader σ ε] (out : Except ε α × σ) : Except ε α × Unread ε := (out.1, Reader.unread out.2)

class LawfulFeed (σ : Type) {ε : outParam Type} [Feed σ ε] : Prop extends LawfulReader σ where
  skips : ∀ s : σ, view (Feed.skipAscii s) = (Reader.unread s).skipAscii

instance : LawfulFeed (Unread ε) where
  serves n u := u.serve_read n
  skips _ := rfl

namespace InMemory

theorem view_skipAscii (r : InMemory) :
    view (Feed.skipAscii r) = (Reader.unread r).skipAscii := by
  change view r.skipAscii = Unread.skipAscii (.ofBytes r.rest)
  have hskip := Unread.skipAscii_run r.rest ([] : Unread Empty)
  rw [List.append_nil] at hskip
  rw [hskip, skipAscii]
  cases r.rest.dropWhile isAscii with
  | nil => rfl
  | cons lead rest => simp only [List.append_nil]; rfl

instance : LawfulFeed InMemory where
  serves := LawfulReader.serves
  skips := view_skipAscii

end InMemory

namespace Bytewise
variable [Reader ρ ε]

theorem skip_eq (r : ρ) : skip r =
    match Reader.read 1 r with
    | (.error e, r') => (.error e, r')
    | (.ok [], r') => (.ok none, r')
    | (.ok (byte :: _), r') => if isAscii byte then skip r' else (.ok (some byte), r') := by
  rw [skip]
  split
  next e r' h => rw [h]
  next r' h => rw [h]
  next byte bytes r' h => rw [h]

theorem skip_map {ρ' : Type} [Reader ρ' ε] {g : ρ → ρ'}
    (hread : ∀ n r, (Reader.read n r).map id g = Reader.read n (g r)) (r : ρ) :
    (skip r).map id g = skip (g r) := by
  fun_induction skip r with
  | case1 r e r' h | case2 r r' h =>
    rw [skip_eq, ← hread, h]
    rfl
  | case3 r byte bytes r' h hascii ih =>
    rw [ih, skip_eq (g r), ← hread, h]
    simp only [Prod.map, id, if_pos hascii]
  | case4 r byte bytes r' h hascii =>
    rw [skip_eq, ← hread, h]
    simp only [Prod.map, id, if_neg hascii]

theorem skip_preserves {P : ρ → Prop} (hread : ∀ n r, P r → P (Reader.read n r).2) {r : ρ} (hr : P r) :
    P (skip r).2 := by
  fun_induction skip r with
  | case1 r e r' h | case2 r r' h | case4 r byte bytes r' h =>
    have hr' := hread 1 r hr
    rwa [h] at hr'
  | case3 r byte bytes r' h _ ih =>
    have hr' := hread 1 r hr
    rw [h] at hr'
    exact ih hr'

variable [LawfulReader ρ]

theorem unread_of_served_one {r r' : ρ} {byte : UInt8} {bytes : List UInt8}
    (h : Reader.read 1 r = (.ok (byte :: bytes), r')) :
    Reader.unread r = .byte byte :: Reader.unread r' := by
  obtain ⟨hlen, hu⟩ := read_bytes Nat.one_pos h
  have hbytes : bytes = [] := List.length_eq_zero_iff.mp (Nat.le_zero.mp (Nat.le_of_succ_le_succ hlen))
  rw [hu, hbytes]
  rfl

theorem view_skip (r : ρ) : view (skip r) = (Reader.unread r).skipAscii := by
  fun_induction skip r with
  | case1 r e r' h | case2 r r' h =>
    obtain ⟨hu, hanswer, hrest⟩ := read_no_bytes Nat.one_pos h (by intro _ _ hbytes; cases hbytes)
    exact (Unread.skipAscii_of_mark hu hanswer hrest).symm
  | case3 r byte bytes r' h hascii ih =>
    rw [ih, unread_of_served_one h, Unread.skipAscii, if_pos hascii]
  | case4 r byte bytes r' h hascii =>
    rw [unread_of_served_one h, Unread.skipAscii, if_neg hascii]
    rfl

instance : LawfulFeed (Bytewise ρ) where
  serves n s := LawfulReader.serves n s.reader
  skips s := view_skip s.reader

end Bytewise

namespace Buffered
variable [BufferedReader ρ ε]

theorem skip_eq (r : ρ) : skip r =
    match BufferedReader.fill r with
    | (.error e, r') => (.error e, r')
    | (.ok [], r') => (.ok none, r')
    | (.ok (first :: chunk), r') =>
      match (first :: chunk).dropWhile isAscii with
      | lead :: _ =>
        (.ok (some lead), BufferedReader.consume (((first :: chunk).takeWhile isAscii).length + 1) r')
      | [] => skip (BufferedReader.consume (first :: chunk).length r') := by
  rw [skip]
  split
  next e r' h => rw [h]
  next r' h => rw [h]
  next first chunk r' h => exact h ▸ rfl

theorem skip_map {ρ' : Type} [BufferedReader ρ' ε] {g : ρ → ρ'}
    (hfill : ∀ r, (BufferedReader.fill r).map id g = BufferedReader.fill (g r))
    (hconsume : ∀ n r, g (BufferedReader.consume n r) = BufferedReader.consume n (g r)) (r : ρ) :
    (skip r).map id g = skip (g r) := by
  fun_induction skip r with
  | case1 r e r' h | case2 r r' h =>
    rw [skip_eq, ← hfill, h]
    rfl
  | case3 r first chunk r' h lead rest hd =>
    rw [skip_eq, ← hfill, h]
    simp only [Prod.map, id, hd, hconsume]
  | case4 r first chunk r' h hd ih =>
    rw [ih, skip_eq (g r), ← hfill, h, hconsume]
    simp only [Prod.map, id, hd]

variable [LawfulBufferedReader ρ]

theorem drop_past_lead {p : α → Bool} {xs tail : List α} {lead : α}
    (h : xs.dropWhile p = lead :: tail) :
    (xs.takeWhile p).length + 1 ≤ xs.length ∧ xs.drop ((xs.takeWhile p).length + 1) = tail := by
  have hsplit := List.takeWhile_append_dropWhile (p := p) (l := xs)
  rw [h] at hsplit
  generalize xs.takeWhile p = before at hsplit
  subst hsplit
  constructor
  · rw [List.length_append, List.length_cons]
    omega
  · rw [← List.drop_drop, List.drop_left]
    rfl

theorem view_skip (r : ρ) : view (skip r) = (Reader.unread r).skipAscii := by
  fun_induction skip r with
  | case1 r e r' h | case2 r r' h =>
    obtain ⟨hu, hanswer, hrest⟩ := fill_no_bytes h (by intro _ _ hbytes; cases hbytes)
    exact (Unread.skipAscii_of_mark hu hanswer hrest).symm
  | case3 r first chunk r' h lead tail hd =>
    obtain ⟨hsame, rest, hu⟩ := fill_bytes h
    obtain ⟨hlen, hdrop⟩ := drop_past_lead hd
    rw [hu, Unread.skipAscii_run, hd]
    change (_, Reader.unread (BufferedReader.consume _ r')) = _
    rw [LawfulBufferedReader.consumes h hlen, hsame, hu, Unread.drop_ofBytes_append hlen, hdrop]
  | case4 r first chunk r' h hd ih =>
    -- The whole buffer is ASCII, so the skip goes on behind it.
    obtain ⟨hsame, rest, hu⟩ := fill_bytes h
    rw [ih, hu, Unread.skipAscii_run, hd, LawfulBufferedReader.consumes h (Nat.le_refl _), hsame, hu,
      Unread.drop_ofBytes_append (Nat.le_refl _), List.drop_length]
    rfl

instance : LawfulFeed (Buffered ρ) where
  serves n s := LawfulReader.serves n s.reader
  skips s := view_skip s.reader

end Buffered
end StrictUtf8
