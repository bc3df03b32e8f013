import StrictUtf8.Json.Token

/-! Literals of JSON texts: how numbers and strings are written, and that each is read as one token. -/

namespace StrictUtf8.Json
def Digits (ds : List Char) : Prop := ds ≠ [] ∧ ∀ d ∈ ds, d.isDigit = true

inductive Integer : List Char → Prop
  | zero : Integer ['0']
  | nonzero {d ds} : d ≠ '0' → Digits (d :: ds) → Integer (d :: ds)

inductive Fraction : List Char → Prop
  | none : Fraction []
  | digits {ds} : Digits ds → Fraction ('.' :: ds)

inductive Exponent : List Char → Prop
  | none : Exponent []
  | digits {e sign ds} : e = 'e' ∨ e = 'E' → sign = [] ∨ sign = ['+'] ∨ sign = ['-'] → Digits ds →
      Exponent (e :: (sign ++ ds))

inductive Number : List Char → Prop
  | unsigned {digits fraction exponent} : Integer digits → Fraction fraction → Exponent exponent →
      Number (digits ++ (fraction ++ exponent))
  | negative {digits fraction exponent} : Integer digits → Fraction fraction → Exponent exponent →
      Number ('-' :: (digits ++ (fraction ++ exponent)))

def EndsDigits (rest : List Char) : Prop := ∀ c ∈ rest.head?, c.isDigit = false

/-- What stands behind a number that does not go on. -/
def EndsNumber (rest : List Char) : Prop :=
  ∀ c ∈ rest.head?, c.isDigit = false ∧ c ≠ '.' ∧ c ≠ 'e' ∧ c ≠ 'E'

section Numbers
variable {cs ds rest : List Char}

theorem EndsNumber.endsDigits (h : EndsNumber rest) : EndsDigits rest := fun c hc => (h c hc).1

theorem takeWhile_digits (hds : ∀ d ∈ ds, d.isDigit = true) (h : EndsDigits rest) :
    (ds ++ rest).takeWhile Char.isDigit = ds := by
  rw [List.takeWhile_append_of_pos hds]
  match rest with
  | [] => exact List.append_nil ds
  | c :: rest => rw [List.takeWhile_cons_of_neg (Bool.eq_false_iff.mp (h c rfl)), List.append_nil]

theorem dropWhile_digits (hds : ∀ d ∈ ds, d.isDigit = true) (h : EndsDigits rest) :
    (ds ++ rest).dropWhile Char.isDigit = rest := by
  rw [List.dropWhile_append_of_pos hds]
  match rest with
  | [] => rfl
  | c :: rest => exact List.dropWhile_cons_of_neg (Bool.eq_false_iff.mp (h c rfl))

theorem afterDigits?_digits (hds : Digits ds) (h : EndsDigits rest) :
    afterDigits? (ds ++ rest) = some rest := by
  obtain ⟨hne, hall⟩ := hds
  match ds with
  | [] => exact (hne rfl).elim
  | d :: ds =>
    obtain ⟨hd, hds⟩ := List.forall_mem_cons.mp hall
    rw [List.cons_append, afterDigits?, if_pos hd, dropWhile_digits hds h]

theorem readInteger?_integer (hds : Integer ds) (h : EndsDigits rest) :
    readInteger? (ds ++ rest) = some (ds, rest) := by
  cases hds with
  | zero => rfl
  | @nonzero d ds hzero hds =>
    obtain ⟨hd, hds⟩ := List.forall_mem_cons.mp hds.2
    rw [List.cons_append, readInteger?, if_pos hd, takeWhile_digits hds h, dropWhile_digits hds h]
    intro hd0
    exact (hzero hd0).elim

theorem Fraction.endsDigits (h : Fraction cs) (hrest : EndsDigits rest) : EndsDigits (cs ++ rest) := by
  cases h with
  | none => exact hrest
  | digits =>
    intro c hc
    obtain rfl := Option.some.inj hc
    rfl

theorem Exponent.endsDigits (h : Exponent cs) (hrest : EndsDigits rest) : EndsDigits (cs ++ rest) := by
  cases h with
  | none => exact hrest
  | digits he =>
    intro c hc
    obtain rfl := Option.some.inj hc
    rcases he with rfl | rfl <;> rfl

theorem afterFraction?_none (h : ∀ more, rest ≠ '.' :: more) : afterFraction? rest = some rest := by
  unfold afterFraction?
  split
  · exact (h _ rfl).elim
  · rfl

theorem afterFraction?_fraction (hcs : Fraction cs) (h : EndsDigits rest)
    (hpoint : ∀ more, rest ≠ '.' :: more) : afterFraction? (cs ++ rest) = some rest := by
  cases hcs with
  | none => exact afterFraction?_none hpoint
  | digits hds => exact afterDigits?_digits hds h

theorem afterExponent?_none (h : EndsNumber rest) : afterExponent? rest = some rest := by
  unfold afterExponent?
  split
  · exact ((h 'e' rfl).2.2.1 rfl).elim
  · exact ((h 'E' rfl).2.2.2 rfl).elim
  · rfl

theorem afterSign_digits (hds : Digits ds) : afterSign (ds ++ rest) = ds ++ rest := by
  obtain ⟨hne, hall⟩ := hds
  match ds with
  | [] => exact (hne rfl).elim
  | d :: ds =>
    have hd := hall d (List.mem_cons_self ..)
    unfold afterSign
    split
    next h => cases h; cases hd
    next h => cases h; cases hd
    next => rfl

theorem afterExponent?_exponent (hcs : Exponent cs) (h : EndsNumber rest) :
    afterExponent? (cs ++ rest) = some rest := by
  cases hcs with
  | none => exact afterExponent?_none h
  | @digits e sign ds he hsign hds =>
    have hafter : afterDigits? (afterSign (sign ++ ds ++ rest)) = some rest := by
      rw [List.append_assoc]
      rcases hsign with rfl | rfl | rfl
      · rw [List.nil_append, afterSign_digits hds]
        exact afterDigits?_digits hds h.endsDigits
      · exact afterDigits?_digits hds h.endsDigits
      · exact afterDigits?_digits hds h.endsDigits
    rcases he with rfl | rfl
    · exact hafter
    · exact hafter

theorem EndsNumber.isContinued_eq_false (h : EndsNumber rest) : isContinued rest = false := by
  unfold isContinued
  split
  · exact ((h '.' rfl).2.1 rfl).elim
  · exact ((h 'e' rfl).2.2.1 rfl).elim
  · exact ((h 'E' rfl).2.2.2 rfl).elim
  · rfl

theorem readUnsigned?_integer (hcs : Integer cs) (h : EndsNumber rest) :
    readUnsigned? (cs ++ rest) = some (some (Nat.ofDigitChars 10 cs 0), rest) := by
  rw [readUnsigned?, readInteger?_integer hcs h.endsDigits, Option.bind_some]
  simp only [h.isContinued_eq_false, Bool.false_eq_true, if_false]

theorem exponent_ne_point {exponent more : List Char} (hexponent : Exponent exponent)
    (h : EndsNumber rest) : exponent ++ rest ≠ '.' :: more := by
  intro hpoint
  cases hexponent with
  | none =>
    rw [List.nil_append] at hpoint
    subst hpoint
    exact (h '.' rfl).2.1 rfl
  | digits he =>
    obtain ⟨rfl, -⟩ := List.cons.inj hpoint
    rcases he with he | he <;> cases he

theorem isContinued_of_parts {fraction exponent : List Char} (hfraction : Fraction fraction)
    (hexponent : Exponent exponent) :
    fraction = [] ∧ exponent = [] ∨ ∀ rest, isContinued (fraction ++ (exponent ++ rest)) = true := by
  cases hfraction with
  | digits => exact .inr fun _ => rfl
  | none =>
    cases hexponent with
    | none => exact .inl ⟨rfl, rfl⟩
    | digits he => rcases he with rfl | rfl <;> exact .inr fun _ => rfl

theorem exists_readUnsigned? {digits fraction exponent : List Char} (hdigits : Integer digits)
    (hfraction : Fraction fraction) (hexponent : Exponent exponent) :
    ∃ natural, ∀ rest, EndsNumber rest →
      readUnsigned? (digits ++ (fraction ++ exponent) ++ rest) = some (natural, rest) := by
  rcases isContinued_of_parts hfraction hexponent with ⟨rfl, rfl⟩ | hcontinued
  · rw [List.append_nil, List.append_nil]
    exact ⟨_, fun rest h => readUnsigned?_integer hdigits h⟩
  refine ⟨none, ?_⟩
  intro rest h
  have hafter : EndsDigits (exponent ++ rest) := hexponent.endsDigits h.endsDigits
  have hrest : (afterFraction? (fraction ++ (exponent ++ rest))).bind afterExponent? = some rest := by
    rw [afterFraction?_fraction hfraction hafter (fun _ => exponent_ne_point hexponent h),
      Option.bind_some, afterExponent?_exponent hexponent h]
  rw [List.append_assoc, List.append_assoc, readUnsigned?,
    readInteger?_integer hdigits (hfraction.endsDigits hafter), Option.bind_some]
  simp only [hcontinued, if_true, hrest, Option.map_some]

theorem Integer.exists_cons (h : Integer cs) : ∃ d ds, cs = d :: ds ∧ d.isDigit = true := by
  cases h with
  | zero => exact ⟨'0', [], rfl, rfl⟩
  | nonzero _ hds => exact ⟨_, _, rfl, hds.2 _ (List.mem_cons_self ..)⟩

theorem readToken?_digit {d : Char} (hd : d.isDigit = true) (cs : List Char) :
    readToken? (d :: cs) =
      (readUnsigned? (d :: cs)).map fun (natural, rest) => (.number natural, rest) := by
  have hsign : readNumber? (d :: cs) = readUnsigned? (d :: cs) := by
    unfold readNumber?
    split
    next h => cases h; cases hd
    next => rfl
  rw [← hsign]
  unfold readToken?
  split
  case h_11 => rfl
  all_goals
    next h =>
      cases h
      cases hd

theorem readToken?_minus (cs : List Char) :
    readToken? ('-' :: cs) = (readUnsigned? cs).map fun (_, rest) => (.number none, rest) := by
  have hread : readToken? ('-' :: cs) =
      ((readUnsigned? cs).map fun (_, rest) => (none, rest)).map fun (natural, rest) =>
        (.number natural, rest) := rfl
  rw [hread, Option.map_map]
  rfl

theorem readToken?_integer (hcs : Integer cs) (h : EndsNumber rest) :
    readToken? (cs ++ rest) = some (.number (some (Nat.ofDigitChars 10 cs 0)), rest) := by
  obtain ⟨d, ds, rfl, hd⟩ := hcs.exists_cons
  rw [List.cons_append, readToken?_digit hd, ← List.cons_append, readUnsigned?_integer hcs h]
  rfl

theorem exists_readToken?_number (hcs : Number cs) :
    ∃ natural, ∀ rest, EndsNumber rest → readToken? (cs ++ rest) = some (.number natural, rest) := by
  cases hcs with
  | unsigned hdigits hfraction hexponent =>
    obtain ⟨natural, hread⟩ := exists_readUnsigned? hdigits hfraction hexponent
    obtain ⟨d, ds, rfl, hd⟩ := hdigits.exists_cons
    refine ⟨natural, ?_⟩
    intro rest h
    have hunsigned := hread rest h
    rw [List.cons_append, List.cons_append] at hunsigned ⊢
    rw [readToken?_digit hd, hunsigned]
    rfl
  | negative hdigits hfraction hexponent =>
    obtain ⟨natural, hread⟩ := exists_readUnsigned? hdigits hfraction hexponent
    exact ⟨none, fun rest h => (readToken?_minus _).trans (hread rest h ▸ rfl)⟩

theorem integer_toDigits (n : Nat) : Integer (Nat.toDigits 10 n) := by
  induction n using Nat.strongRecOn with
  | ind n ih =>
    have hdigit : ∀ k < 10, k.digitChar.isDigit = true ∧ (k ≠ 0 → k.digitChar ≠ '0') := by decide
    rw [Nat.toDigits_eq_if (by decide)]
    split
    next hlt =>
      obtain ⟨hisDigit, hne⟩ := hdigit n hlt
      by_cases hzero : n = 0
      · rw [hzero]
        exact .zero
      · exact .nonzero (hne hzero) ⟨List.cons_ne_nil _ _, List.forall_mem_singleton.mpr hisDigit⟩
    next hge =>
      have hlast := (hdigit (n % 10) (Nat.mod_lt n (by decide))).1
      have hpos : Nat.ofDigitChars 10 (Nat.toDigits 10 (n / 10)) 0 ≠ 0 := by
        rw [Nat.ofDigitChars_toDigits (by decide) (by decide)]
        omega
      have hfront := ih (n / 10) (by omega)
      -- The digits in front are not a lone zero, so their first one is not zero.
      generalize Nat.toDigits 10 (n / 10) = ds at hpos hfront
      cases hfront with
      | zero => exact (hpos rfl).elim
      | nonzero hne hds =>
        have hall := List.forall_mem_append.mpr ⟨hds.2, List.forall_mem_singleton.mpr hlast⟩
        exact .nonzero hne ⟨List.cons_ne_nil _ _, hall⟩

end Numbers

def hexDigits : List (Char × Nat) :=
  [('0', 0), ('1', 1), ('2', 2), ('3', 3), ('4', 4), ('5', 5), ('6', 6), ('7', 7), ('8', 8), ('9', 9),
    ('a', 10), ('b', 11), ('c', 12), ('d', 13), ('e', 14), ('f', 15),
    ('A', 10), ('B', 11), ('C', 12), ('D', 13), ('E', 14), ('F', 15)]

def escapes : List (Char × Char) :=
  [('"', '"'), ('\\', '\\'), ('/', '/'), ('b', '\x08'), ('f', '\x0C'), ('n', '\n'), ('r', '\r'),
    ('t', '\t')]

inductive CharSpells : List Char → List UInt16 → Prop
  | plain {c} : c ≠ '"' → c ≠ '\\' → ' ' ≤ c → CharSpells [c] (Scalar.units c)
  | escape {c d} : (c, d) ∈ escapes → CharSpells ['\\', c] (Scalar.units d)
  | unit {a b c d i j k l unit} : (a, i) ∈ hexDigits → (b, j) ∈ hexDigits → (c, k) ∈ hexDigits →
      (d, l) ∈ hexDigits → UInt16.toNat unit = ((i * 16 + j) * 16 + k) * 16 + l →
      CharSpells ['\\', 'u', a, b, c, d] [unit]

inductive Spells : List Char → List UInt16 → Prop
  | nil : Spells [] []
  | cons {cs units more rest} : CharSpells cs units → Spells more rest →
      Spells (cs ++ more) (units ++ rest)

inductive Quoted : List Char → List UInt16 → Prop
  | mk {cs units} : Spells cs units → Quoted ('"' :: (cs ++ ['"'])) units

section Strings
variable {cs : List Char} {units : List UInt16}

theorem hexDigit?_of_mem {c : Char} {n : Nat} (h : (c, n) ∈ hexDigits) : hexDigit? c = some n := by
  have hall : ∀ p ∈ hexDigits, hexDigit? p.1 = some p.2 := by decide
  exact hall (c, n) h

theorem escaped?_of_mem {c d : Char} (h : (c, d) ∈ escapes) : escaped? c = some d ∧ c ≠ 'u' := by
  have hall : ∀ p ∈ escapes, escaped? p.1 = some p.2 ∧ p.1 ≠ 'u' := by decide
  exact hall (c, d) h

theorem hexUnit?_of_mem {a b c d : Char} {i j k l : Nat} {unit : UInt16} (ha : (a, i) ∈ hexDigits)
    (hb : (b, j) ∈ hexDigits) (hc : (c, k) ∈ hexDigits) (hd : (d, l) ∈ hexDigits)
    (hunit : unit.toNat = ((i * 16 + j) * 16 + k) * 16 + l) : hexUnit? [a, b, c, d] = some unit := by
  have hvalues : [a, b, c, d].mapM hexDigit? = some [i, j, k, l] := by
    simp only [List.mapM_cons, List.mapM_nil, hexDigit?_of_mem ha, hexDigit?_of_mem hb,
      hexDigit?_of_mem hc, hexDigit?_of_mem hd]
    rfl
  have hvalue : [i, j, k, l].foldl (fun n d => n * 16 + d) 0 = unit.toNat := by
    simp only [List.foldl_cons, List.foldl_nil, hunit, Nat.zero_mul, Nat.zero_add]
  rw [hexUnit?, hvalues, Option.map_some, hvalue]
  exact congrArg some UInt16.ofNat_toNat

theorem readUnits?_charSpells (h : CharSpells cs units) (rest : List Char) :
    readUnits? (cs ++ rest) = some (units, rest) := by
  cases h with
  | @plain c hquote hbackslash hcontrol =>
    rw [List.singleton_append]
    unfold readUnits?
    split
    next h => exact (hbackslash (List.cons.inj h).1).elim
    next h => exact (hbackslash (List.cons.inj h).1).elim
    next h =>
      obtain ⟨rfl, rfl⟩ := List.cons.inj h
      rw [if_neg]
      simp only [Bool.or_eq_true, beq_iff_eq, decide_eq_true_eq, not_or]
      exact ⟨⟨hquote, hbackslash⟩, Char.not_lt.mpr hcontrol⟩
    next h => cases h
  | @escape c d hescape =>
    obtain ⟨hescaped, hu⟩ := escaped?_of_mem hescape
    rw [List.cons_append, List.singleton_append]
    unfold readUnits?
    split
    next h => exact (hu (List.cons.inj (List.cons.inj h).2).1).elim
    next h =>
      obtain ⟨rfl, rfl⟩ := List.cons.inj (List.cons.inj h).2
      rw [hescaped]
      rfl
    next hne h => exact (hne _ _ (List.cons.inj h).1.symm (List.cons.inj h).2.symm).elim
    next h => cases h
  | @unit a b c d i j k l unit ha hb hc hd hunit =>
    change (hexUnit? [a, b, c, d]).map _ = _
    rw [hexUnit?_of_mem ha hb hc hd hunit]
    rfl

theorem readUnits?_quote (rest : List Char) : readUnits? ('"' :: rest) = none := rfl

theorem readText?_eq (done : List UInt16) (cs : List Char) :
    readText? done cs = match readUnits? cs with
      | some (units, rest) => readText? (units.reverse ++ done) rest
      | none => (afterQuote? cs).map (done.reverse, ·) := by
  rw [readText?]
  split
  next units rest h => rw [h]
  next h => rw [h]

theorem readText?_spells (h : Spells cs units) (done : List UInt16) (rest : List Char) :
    readText? done (cs ++ '"' :: rest) = some (done.reverse ++ units, rest) := by
  induction h generalizing done with
  | nil =>
    rw [List.nil_append, readText?_eq, readUnits?_quote, List.append_nil]
    rfl
  | @cons cs units more tail hcs _ ih =>
    rw [List.append_assoc, readText?_eq, readUnits?_charSpells hcs]
    change readText? (units.reverse ++ done) (more ++ '"' :: rest) = _
    rw [ih, List.reverse_append, List.reverse_reverse, List.append_assoc]

theorem readToken?_quoted (h : Quoted cs units) (rest : List Char) :
    readToken? (cs ++ rest) = some (.text units, rest) := by
  obtain ⟨hspells⟩ := h
  have hread := readText?_spells hspells [] rest
  rw [List.cons_append, List.append_assoc, List.singleton_append]
  change (readText? [] _).map _ = _
  rw [hread]
  rfl

theorem spells_plain {text : List Char} (h : ∀ c ∈ text, c ≠ '"' ∧ c ≠ '\\' ∧ ' ' ≤ c) :
    Spells text (utf16 text) := by
  induction text with
  | nil => exact .nil
  | cons c text ih =>
    obtain ⟨⟨hquote, hbackslash, hcontrol⟩, htext⟩ := List.forall_mem_cons.mp h
    exact .cons (.plain hquote hbackslash hcontrol) (ih htext)

end Strings

end StrictUtf8.Json
