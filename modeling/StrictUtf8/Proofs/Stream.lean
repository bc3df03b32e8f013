import StrictUtf8.Reader.Basic

/-! Streams of unread items, cut at their first mark, and the laws of readers: what a single request
may answer, and what it leaves unread. -/

namespace StrictUtf8
variable {ε α : Type}

namespace Unread

def bytes : Unread ε → List UInt8
  | .byte b :: rest => b :: bytes rest
  | _ => []

/-- All from the first mark on. -/
def marks : Unread ε → Unread ε
  | .byte _ :: rest => marks rest
  | rest => rest

/-- The answer of a request that finds no byte: the failure in front, or else `answer`. -/
def atMark (answer : α) : Unread ε → Except ε α
  | .error e :: _ => .error e
  | _ => .ok answer

theorem ofBytes_cons (b : UInt8) (xs : List UInt8) :
    (ofBytes (b :: xs) : Unread ε) = .byte b :: ofBytes xs := rfl

theorem ofBytes_append (xs ys : List UInt8) :
    (ofBytes (xs ++ ys) : Unread ε) = ofBytes xs ++ ofBytes ys := List.map_append

theorem ofBytes_inj {xs ys : List UInt8} :
    (ofBytes xs : Unread ε) = ofBytes ys ↔ xs = ys :=
  List.map_inj_right fun _ _ => Item.byte.inj

theorem drop_ofBytes (n : Nat) (xs : List UInt8) :
    (ofBytes xs : Unread ε).drop n = ofBytes (xs.drop n) := List.map_drop.symm

theorem drop_ofBytes_append {n : Nat} {xs : List UInt8} (h : n ≤ xs.length) (u : Unread ε) :
    (ofBytes xs ++ u).drop n = ofBytes (xs.drop n) ++ u := by
  rw [List.drop_append_of_le_length ((length_ofBytes xs).symm ▸ h), drop_ofBytes]

@[simp] theorem bytes_ofBytes_append (xs : List UInt8) (u : Unread ε) :
    (ofBytes xs ++ u).bytes = xs ++ u.bytes := by
  induction xs with
  | nil => rfl
  | cons b xs ih => exact congrArg (b :: ·) ih

@[simp] theorem marks_ofBytes_append (xs : List UInt8) (u : Unread ε) :
    (ofBytes xs ++ u).marks = u.marks := by
  induction xs with
  | nil => rfl
  | cons b xs ih => exact ih

theorem ofBytes_bytes_append_marks (u : Unread ε) : ofBytes u.bytes ++ u.marks = u := by
  induction u with
  | nil => rfl
  | cons item u ih =>
    cases item with
    | byte b => exact congrArg (.byte b :: ·) ih
    | eof => rfl
    | error e => rfl

theorem drop_past_ofBytes (xs : List UInt8) (u : Unread ε) (n : Nat) :
    (ofBytes xs ++ u).drop (xs.length + n) = u.drop n := by
  rw [← length_ofBytes (ε := ε) xs, List.drop_length_add_append]

theorem drop_length_bytes (u : Unread ε) : u.drop u.bytes.length = u.marks := by
  have hdrop := drop_ofBytes_append (Nat.le_refl u.bytes.length) u.marks
  rwa [ofBytes_bytes_append_marks, List.drop_length] at hdrop

@[simp] theorem bytes_marks (u : Unread ε) : u.marks.bytes = [] := by
  induction u with
  | nil => rfl
  | cons item u ih =>
    cases item with
    | byte b => exact ih
    | eof => rfl
    | error e => rfl

theorem marks_of_bytes_nil {u : Unread ε} (h : u.bytes = []) : u.marks = u := by
  simpa only [h, ofBytes, List.map_nil, List.nil_append] using ofBytes_bytes_append_marks u

theorem atMark_cases (u : Unread ε) :
    (∀ (α : Type) (answer : α), u.atMark answer = .ok answer) ∨
      ∃ e, ∀ (α : Type) (answer : α), u.atMark answer = .error e := by
  match u with
  | [] | .byte _ :: _ | .eof :: _ => exact .inl fun _ _ => rfl
  | .error e :: _ => exact .inr ⟨e, fun _ _ => rfl⟩

theorem map_atMark {β : Type} (f : α → β) (u : Unread ε) (answer : α) :
    (u.atMark answer).map f = u.atMark (f answer) := by
  rcases atMark_cases u with hok | ⟨e, herror⟩
  · rw [hok, hok]
    rfl
  · rw [herror, herror]
    rfl

theorem atMark_eq_error {β : Type} {u : Unread ε} {answer : α} {e : ε}
    (h : u.atMark answer = .error e) (other : β) : u.atMark other = .error e := by
  rcases atMark_cases u with hok | ⟨e', herror⟩
  · simp [hok] at h
  · rw [herror] at h ⊢
    exact congrArg Except.error (Except.error.inj h)

theorem atMark_eq_ok {β : Type} {u : Unread ε} {answer value : α}
    (h : u.atMark answer = .ok value) (other : β) : u.atMark other = .ok other := by
  rcases atMark_cases u with hok | ⟨e, herror⟩
  · exact hok β other
  · simp [herror] at h

theorem eq_of_atMark_eq_ok {u : Unread ε} {answer value : α} (h : u.atMark answer = .ok value) :
    value = answer := Except.ok.inj (h.symm.trans (atMark_eq_ok h answer))

end Unread

/-- What one request for at most `n` bytes may do to a stream: serve bytes from its front, or take the
mark in front (nothing, at the end of the stream). A request for no bytes may do nothing at all. -/
inductive Serve (n : Nat) : Unread ε → Except ε (List UInt8) → Unread ε → Prop
  | idle {u} : n = 0 → Serve n u (.ok []) u
  | bytes {served rest} : served ≠ [] → served.length ≤ n →
      Serve n (.ofBytes served ++ rest) (.ok served) rest
  | mark {u} : u.bytes = [] → Serve n u (u.atMark []) (u.drop 1)

theorem Serve.cases_of_pos {n : Nat} {u u' : Unread ε} {answer : Except ε (List UInt8)} (hn : 0 < n)
    (h : Serve n u answer u') :
    (∃ served, served ≠ [] ∧ served.length ≤ n ∧ answer = .ok served ∧ u = .ofBytes served ++ u') ∨
      (u.bytes = [] ∧ answer = u.atMark [] ∧ u' = u.drop 1) := by
  cases h with
  | idle h => omega
  | bytes hne hlen => exact .inl ⟨_, hne, hlen, rfl, rfl⟩
  | mark hu => exact .inr ⟨hu, rfl, rfl⟩

/-- What filling a buffer may do: show bytes from the front of the stream, which stay unread, or take
the mark in front. -/
inductive Show : Unread ε → Except ε (List UInt8) → Unread ε → Prop
  | bytes {shown rest} : shown ≠ [] → Show (.ofBytes shown ++ rest) (.ok shown) (.ofBytes shown ++ rest)
  | mark {u} : u.bytes = [] → Show u (u.atMark []) (u.drop 1)

theorem Show.cases {u u' : Unread ε} {answer : Except ε (List UInt8)} (h : Show u answer u') :
    (∃ shown rest, shown ≠ [] ∧ answer = .ok shown ∧ u = .ofBytes shown ++ rest ∧ u' = u) ∨
      (u.bytes = [] ∧ answer = u.atMark [] ∧ u' = u.drop 1) := by
  cases h with
  | bytes hne => exact .inl ⟨_, _, hne, rfl, rfl, rfl⟩
  | mark hu => exact .inr ⟨hu, rfl, rfl⟩

theorem Serve.of_no_bytes {n : Nat} {u u' : Unread ε} {answer : Except ε (List UInt8)} (hn : 0 < n)
    (h : Serve n u answer u') (hanswer : ∀ b bs, answer ≠ .ok (b :: bs)) :
    u.bytes = [] ∧ answer = u.atMark [] ∧ u' = u.drop 1 := by
  rcases h.cases_of_pos hn with ⟨served, hne, -, rfl, -⟩ | hmark
  · obtain ⟨b, bs, rfl⟩ := List.exists_cons_of_ne_nil hne
    exact (hanswer b bs rfl).elim
  · exact hmark

theorem Serve.of_bytes {n : Nat} {u u' : Unread ε} {b : UInt8} {bs : List UInt8} (hn : 0 < n)
    (h : Serve n u (.ok (b :: bs)) u') : bs.length + 1 ≤ n ∧ u = .ofBytes (b :: bs) ++ u' := by
  rcases h.cases_of_pos hn with ⟨served, -, hlen, hanswer, hu⟩ | ⟨-, hanswer, -⟩
  · obtain rfl := Except.ok.inj hanswer
    exact ⟨hlen, hu⟩
  · exact (List.cons_ne_nil b bs (Unread.eq_of_atMark_eq_ok hanswer.symm)).elim

theorem Show.of_no_bytes {u u' : Unread ε} {answer : Except ε (List UInt8)} (h : Show u answer u')
    (hanswer : ∀ b bs, answer ≠ .ok (b :: bs)) :
    u.bytes = [] ∧ answer = u.atMark [] ∧ u' = u.drop 1 := by
  rcases h.cases with ⟨shown, rest, hne, rfl, -, -⟩ | hmark
  · obtain ⟨b, bs, rfl⟩ := List.exists_cons_of_ne_nil hne
    exact (hanswer b bs rfl).elim
  · exact hmark

theorem Show.of_bytes {u u' : Unread ε} {b : UInt8} {bs : List UInt8} (h : Show u (.ok (b :: bs)) u') :
    u' = u ∧ ∃ rest, u = .ofBytes (b :: bs) ++ rest := by
  rcases h.cases with ⟨shown, rest, -, hanswer, hu, hsame⟩ | ⟨-, hanswer, -⟩
  · obtain rfl := Except.ok.inj hanswer
    exact ⟨hsame, rest, hu⟩
  · exact (List.cons_ne_nil b bs (Unread.eq_of_atMark_eq_ok hanswer.symm)).elim

class LawfulReader (ρ : Type) {ε : outParam Type} [Reader ρ ε] : Prop where
  serves : ∀ (n : Nat) (r : ρ),
    Serve n (Reader.unread r) (Reader.read n r).1 (Reader.unread (Reader.read n r).2)

class LawfulBufferedReader (ρ : Type) {ε : outParam Type} [BufferedReader ρ ε] : Prop
    extends LawfulReader ρ where
  shows : ∀ r : ρ, Show (Reader.unread r) (BufferedReader.fill r).1
    (Reader.unread (BufferedReader.fill r).2)
  consumes : ∀ {r r' : ρ} {chunk n}, BufferedReader.fill r = (.ok chunk, r') → n ≤ chunk.length →
    Reader.unread (BufferedReader.consume n r') = (Reader.unread r').drop n

section Laws
variable {ρ : Type} {n : Nat} {r r' : ρ} {answer : Except ε (List UInt8)} {b : UInt8} {bs : List UInt8}

theorem read_no_bytes [Reader ρ ε] [LawfulReader ρ] (hn : 0 < n) (h : Reader.read n r = (answer, r'))
    (hanswer : ∀ b bs, answer ≠ .ok (b :: bs)) :
    (Reader.unread r).bytes = [] ∧ answer = (Reader.unread r).atMark [] ∧
      Reader.unread r' = (Reader.unread r).drop 1 := by
  have hserve := LawfulReader.serves n r
  rw [h] at hserve
  exact hserve.of_no_bytes hn hanswer

theorem read_bytes [Reader ρ ε] [LawfulReader ρ] (hn : 0 < n)
    (h : Reader.read n r = (.ok (b :: bs), r')) :
    bs.length + 1 ≤ n ∧ Reader.unread r = .ofBytes (b :: bs) ++ Reader.unread r' := by
  have hserve := LawfulReader.serves n r
  rw [h] at hserve
  exact hserve.of_bytes hn

theorem fill_no_bytes [BufferedReader ρ ε] [LawfulBufferedReader ρ]
    (h : BufferedReader.fill r = (answer, r')) (hanswer : ∀ b bs, answer ≠ .ok (b :: bs)) :
    (Reader.unread r).bytes = [] ∧ answer = (Reader.unread r).atMark [] ∧
      Reader.unread r' = (Reader.unread r).drop 1 := by
  have hshow := LawfulBufferedReader.shows r
  rw [h] at hshow
  exact hshow.of_no_bytes hanswer

theorem fill_bytes [BufferedReader ρ ε] [LawfulBufferedReader ρ]
    (h : BufferedReader.fill r = (.ok (b :: bs), r')) :
    Reader.unread r' = Reader.unread r ∧ ∃ rest, Reader.unread r = .ofBytes (b :: bs) ++ rest := by
  have hshow := LawfulBufferedReader.shows r
  rw [h] at hshow
  exact hshow.of_bytes

end Laws

end StrictUtf8
