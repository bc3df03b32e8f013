import StrictUtf8.Json.Skip
import StrictUtf8.Proofs.Literals

/-! JSON values as they are written, with blanks around every sign of structure. Whatever is written is
read as tokens, and the tokens of one value, nested to any depth, are passed over to its end. -/

namespace StrictUtf8.Json

def Blanks (cs : List Char) : Prop := ∀ c ∈ cs, c = ' ' ∨ c = '\t' ∨ c = '\n' ∨ c = '\r'

def signToken? : Char → Option Token
  | '{' => some .openBrace
  | '}' => some .closeBrace
  | '[' => some .openBracket
  | ']' => some .closeBracket
  | ',' => some .comma
  | ':' => some .colon
  | _ => none

inductive Sign (c : Char) : List Char → Prop
  | mk {before after} : Blanks before → Blanks after → Sign c (before ++ c :: after)

theorem Sign.bare (c : Char) : Sign c [c] := by
  have hblanks : Blanks [] := fun _ h => by cases h
  exact .mk hblanks hblanks

inductive Part where
  | value
  | values
  | member
  | members

inductive Written : Part → List Char → Prop
  | word {cs} : cs = ['t', 'r', 'u', 'e'] ∨ cs = ['f', 'a', 'l', 's', 'e'] ∨ cs = ['n', 'u', 'l', 'l'] →
      Written .value cs
  | number {cs} : Number cs → Written .value cs
  | text {cs units} : Quoted cs units → Written .value cs
  | emptyArray {l r} : Sign '[' l → Sign ']' r → Written .value (l ++ r)
  | array {l cs r} : Sign '[' l → Written .values cs → Sign ']' r → Written .value (l ++ (cs ++ r))
  | emptyObject {l r} : Sign '{' l → Sign '}' r → Written .value (l ++ r)
  | object {l cs r} : Sign '{' l → Written .members cs → Sign '}' r → Written .value (l ++ (cs ++ r))
  | lastValue {cs} : Written .value cs → Written .values cs
  | values {cs comma more} : Written .value cs → Sign ',' comma → Written .values more →
      Written .values (cs ++ comma ++ more)
  | member {name units colon cs} : Quoted name units → Sign ':' colon → Written .value cs →
      Written .member (name ++ colon ++ cs)
  | lastMember {cs} : Written .member cs → Written .members cs
  | members {cs comma more} : Written .member cs → Sign ',' comma → Written .members more →
      Written .members (cs ++ comma ++ more)

theorem Integer.written {cs : List Char} (h : Integer cs) : Written .value cs := by
  have hnumber := Number.unsigned h .none .none
  rw [List.append_nil, List.append_nil] at hnumber
  exact .number hnumber

def ReadsBefore (P : List Char → Prop) (cs : List Char) (tokens : List Token) : Prop :=
  ∀ done rest, P rest → tokensFrom? done (cs ++ rest) = tokensFrom? (tokens.reverse ++ done) rest

/-- Unless a number goes on behind it, `cs` is read as these tokens. -/
abbrev Reads : List Char → List Token → Prop := ReadsBefore EndsNumber

abbrev Delimited : List Char → List Token → Prop := ReadsBefore fun _ => True

section Reading
variable {cs ds rest : List Char} {tokens more : List Token} {token : Token} {c : Char}

theorem tokensFrom?_eq (done : List Token) (cs : List Char) :
    tokensFrom? done cs = match readToken? (cs.dropWhile isBlank) with
      | some (token, rest) => tokensFrom? (token :: done) rest
      | none => if cs.dropWhile isBlank = [] then some done.reverse else none := by
  rw [tokensFrom?]
  split
  next token rest h => rw [h]
  next h => rw [h]

theorem Blanks.dropWhile (h : Blanks cs) (rest : List Char) :
    (cs ++ rest).dropWhile isBlank = rest.dropWhile isBlank := by
  refine List.dropWhile_append_of_pos ?_
  intro c hc
  rcases h c hc with rfl | rfl | rfl | rfl <;> rfl

theorem tokensFrom?_blanks (h : Blanks cs) (done : List Token) (rest : List Char) :
    tokensFrom? done (cs ++ rest) = tokensFrom? done rest := by
  rw [tokensFrom?_eq, tokensFrom?_eq done rest, h.dropWhile]

theorem dropWhile_of_readToken? (h : readToken? cs = some (token, rest)) : cs.dropWhile isBlank = cs := by
  match cs with
  | [] => rfl
  | c :: cs =>
    refine List.dropWhile_cons_of_neg ?_
    intro hblank
    simp only [isBlank, Bool.or_eq_true, beq_iff_eq] at hblank
    rcases hblank with ((rfl | rfl) | rfl) | rfl <;> cases h

theorem tokensFrom?_token (h : readToken? cs = some (token, rest)) (done : List Token) :
    tokensFrom? done cs = tokensFrom? (token :: done) rest := by
  rw [tokensFrom?_eq, dropWhile_of_readToken? h, h]

theorem ReadsBefore.of_readToken? {P : List Char → Prop}
    (h : ∀ rest, P rest → readToken? (cs ++ rest) = some (token, rest)) : ReadsBefore P cs [token] :=
  fun done rest hrest => tokensFrom?_token (h rest hrest) done

theorem ReadsBefore.reads (h : Delimited cs tokens) : Reads cs tokens :=
  fun done rest _ => h done rest trivial

theorem ReadsBefore.append {P : List Char → Prop} (h : Delimited cs tokens) (hds : ReadsBefore P ds more) :
    ReadsBefore P (cs ++ ds) (tokens ++ more) := by
  intro done rest hrest
  rw [List.append_assoc, h done _ trivial, hds _ rest hrest, List.reverse_append, List.append_assoc]

theorem ReadsBefore.tokens?_eq (h : Reads cs tokens) : tokens? cs = some tokens := by
  have hread := h [] [] (fun _ hc => by cases hc)
  rw [List.append_nil, List.append_nil, tokensFrom?_eq tokens.reverse] at hread
  exact hread.trans (congrArg some (List.reverse_reverse tokens))

theorem readToken?_sign (h : signToken? c = some token) (rest : List Char) :
    readToken? (c :: rest) = some (token, rest) := by
  unfold signToken? at h
  split at h <;> cases h <;> rfl

theorem endsNumber_sign (h : signToken? c = some token) (rest : List Char) : EndsNumber (c :: rest) := by
  intro d hd
  obtain rfl := Option.some.inj hd
  unfold signToken? at h
  split at h <;> cases h <;> decide

theorem Sign.delimited (hcs : Sign c cs) (h : signToken? c = some token) : Delimited cs [token] := by
  obtain ⟨hbefore, hafter⟩ := hcs
  intro done rest _
  rw [List.append_assoc, tokensFrom?_blanks hbefore, List.cons_append,
    tokensFrom?_token (readToken?_sign h _), tokensFrom?_blanks hafter]
  rfl

theorem Sign.endsNumber (hcs : Sign c cs) (h : signToken? c = some token) (rest : List Char) :
    EndsNumber (cs ++ rest) := by
  cases hcs with
  | @mk before after hbefore =>
    match before with
    | [] => exact endsNumber_sign h _
    | b :: before =>
      intro d hd
      obtain rfl := Option.some.inj hd
      rcases hbefore b (List.mem_cons_self ..) with rfl | rfl | rfl | rfl <;> decide

theorem ReadsBefore.sign (h : Reads cs tokens) (hds : Sign c ds) (hsign : signToken? c = some token) :
    Delimited (cs ++ ds) (tokens ++ [token]) := by
  intro done rest _
  rw [List.append_assoc, h done _ (hds.endsNumber hsign rest), hds.delimited hsign _ rest trivial,
    List.reverse_append, List.append_assoc]

end Reading

section Skipping
variable {tokens more : List Token}

def Part.Skips : Part → List Token → Prop
  | .value, tokens => ∀ frames more, skipValue? frames (tokens ++ more) = skipRest? frames more
  | .values, tokens => ∀ frames more,
      skipValue? (.array :: frames) (tokens ++ .closeBracket :: more) = skipRest? frames more
  | .member, tokens => ∃ units value, tokens = .text units :: .colon :: value ∧
      ∀ frames more, skipValue? frames (value ++ more) = skipRest? frames more
  | .members, tokens => ∃ units rest, tokens = .text units :: .colon :: rest ∧ ∀ frames more,
      skipValue? (.object :: frames) (rest ++ .closeBrace :: more) = skipRest? frames more

theorem skipRest?_nil (tokens : List Token) : skipRest? [] tokens = some tokens := by
  rw [skipRest?]

theorem skipValue?_openBracket {frames : List Frame} (h : ∀ rest, tokens ≠ .closeBracket :: rest) :
    skipValue? frames (.openBracket :: tokens) = skipValue? (.array :: frames) tokens := by
  rw [skipValue?]
  exact h

theorem ne_closeBracket_of_skip {frames : List Frame} {left : List Token}
    (h : skipValue? frames tokens = some left) (rest : List Token) : tokens ≠ .closeBracket :: rest := by
  rintro rfl
  have hnone : skipValue? frames (.closeBracket :: rest) = none := rfl
  rw [hnone] at h
  cases h

theorem Written.exists_reads {part : Part} {cs : List Char} (h : Written part cs) :
    ∃ tokens, Reads cs tokens ∧ part.Skips tokens := by
  induction h with
  | @word cs hcs =>
    have hread : Delimited cs [.word] := .of_readToken? fun rest _ => by
      rcases hcs with rfl | rfl | rfl <;> rfl
    exact ⟨[.word], hread.reads, fun _ _ => rfl⟩
  | number hcs =>
    obtain ⟨natural, hread⟩ := exists_readToken?_number hcs
    exact ⟨[.number natural], .of_readToken? hread, fun _ _ => rfl⟩
  | @text cs units hcs =>
    have hread : Delimited cs [.text units] := .of_readToken? fun rest _ => readToken?_quoted hcs rest
    exact ⟨[.text units], hread.reads, fun _ _ => rfl⟩
  | emptyArray hl hr =>
    have hread := (hl.delimited rfl).append (hr.delimited rfl)
    exact ⟨_, hread.reads, fun _ _ => rfl⟩
  | array hl _ hr ih =>
    obtain ⟨tokens, hread, hskip⟩ := ih
    have hread' := (hl.delimited rfl).append (hread.sign hr rfl)
    refine ⟨_, hread'.reads, ?_⟩
    intro frames more
    have hpassed : skipValue? [.array] (tokens ++ .closeBracket :: more) = some more :=
      (hskip [] more).trans (skipRest?_nil more)
    have hne := ne_closeBracket_of_skip hpassed
    rw [List.append_assoc, List.append_assoc]
    exact (skipValue?_openBracket hne).trans (hskip frames more)
  | emptyObject hl hr =>
    have hread := (hl.delimited rfl).append (hr.delimited rfl)
    exact ⟨_, hread.reads, fun _ _ => rfl⟩
  | object hl _ hr ih =>
    obtain ⟨_, hread, units, tokens, rfl, hskip⟩ := ih
    have hread' := (hl.delimited rfl).append (hread.sign hr rfl)
    refine ⟨_, hread'.reads, ?_⟩
    intro frames more
    rw [List.append_assoc, List.append_assoc]
    exact hskip frames more
  | lastValue _ ih =>
    obtain ⟨tokens, hread, hskip⟩ := ih
    exact ⟨tokens, hread, fun frames more => hskip (.array :: frames) (.closeBracket :: more)⟩
  | values _ hcomma _ ih ihmore =>
    obtain ⟨tokens, hread, hskip⟩ := ih
    obtain ⟨tokens', hread', hskip'⟩ := ihmore
    have hread'' := (hread.sign hcomma rfl).append hread'
    refine ⟨_, hread'', ?_⟩
    intro frames more
    rw [List.append_assoc, List.append_assoc, hskip]
    exact hskip' frames more
  | @member name units colon cs hname hcolon _ ih =>
    obtain ⟨tokens, hread, hskip⟩ := ih
    have hread' : Delimited name [.text units] := .of_readToken? fun rest _ => readToken?_quoted hname rest
    have hread'' := (hread'.append (hcolon.delimited rfl)).append hread
    exact ⟨_, hread'', _, tokens, rfl, hskip⟩
  | lastMember _ ih =>
    obtain ⟨_, hread, units, value, rfl, hskip⟩ := ih
    exact ⟨_, hread, units, value, rfl,
      fun frames more => hskip (.object :: frames) (.closeBrace :: more)⟩
  | members _ hcomma _ ih ihmore =>
    obtain ⟨_, hread, units, value, rfl, hskip⟩ := ih
    obtain ⟨_, hread', units', rest, rfl, hskip'⟩ := ihmore
    have hread'' := (hread.sign hcomma rfl).append hread'
    refine ⟨_, hread'', units, value ++ .comma :: .text units' :: .colon :: rest, ?_, ?_⟩
    · rw [List.append_assoc]
      rfl
    · intro frames more
      rw [List.append_assoc, hskip]
      exact hskip' frames more

end Skipping

end StrictUtf8.Json
