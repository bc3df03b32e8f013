import StrictUtf8.Proofs.Decoders
import StrictUtf8.Proofs.Values
import StrictUtf8.Settings.Json

/-! Settings written as JSON objects. An object gives a field the value of its one member of that name,
whatever other members stand around it, and the default if there is none; two such members are refused. -/

namespace StrictUtf8
open Json

/-- One member of an object as it is written, with its unescaped name and the text of its value. -/
inductive Member (name value : List Char) : List Char → Prop
  | mk {key colon} : Quoted key (utf16 name) → Sign ':' colon → Written .value value →
      Member name value (key ++ colon ++ value)

inductive Members : List (List Char × List Char) → List Char → Prop
  | last {name value cs} : Member name value cs → Members [(name, value)] cs
  | more {name value cs comma members rest} : Member name value cs → Sign ',' comma →
      Members members rest → Members ((name, value) :: members) (cs ++ comma ++ rest)

inductive Object : List (List Char × List Char) → List Char → Prop
  | empty {l r} : Sign '{' l → Sign '}' r → Object [] (l ++ r)
  | members {members l cs r} : Sign '{' l → Members members cs → Sign '}' r →
      Object members (l ++ (cs ++ r))

def valuesOf (name : List Char) (members : List (List Char × List Char)) : List (List Char) :=
  (members.filter (·.1 = name)).map (·.2)

def Numeral (digits : List Char) (value : UInt64) : Prop :=
  Integer digits ∧ Nat.ofDigitChars 10 digits 0 = value.toNat

theorem Member.exists_reads {name value cs : List Char} (h : Member name value cs) :
    ∃ tokens, Reads cs (.text (utf16 name) :: .colon :: tokens) ∧ Part.value.Skips tokens ∧
      ∀ v, Numeral value v → tokens = [.number (some v.toNat)] := by
  obtain ⟨hkey, hcolon, hvalue⟩ := h
  obtain ⟨tokens, hread, hskip⟩ := hvalue.exists_reads
  have hname : Delimited _ [.text (utf16 name)] := .of_readToken? fun rest _ => readToken?_quoted hkey rest
  refine ⟨tokens, (hname.append (hcolon.delimited rfl)).append hread, hskip, ?_⟩
  intro v ⟨hdigits, hv⟩
  -- The text of the value is read in no other way.
  have hnumber : Reads value [.number (some v.toNat)] :=
    .of_readToken? fun rest hrest => hv ▸ readToken?_integer hdigits hrest
  exact Option.some.inj (hread.tokens?_eq.symm.trans hnumber.tokens?_eq)

namespace Field
variable {field : Field} {known : List (List Char)} {name value : List Char} {tokens tail : List Token}

def goOn? (field : Field) (found : Option UInt64) : List Token → Option UInt64
  | .comma :: rest => field.readMembers? found rest
  | [.closeBrace] => some (found.getD field.default)
  | _ => none

theorem readMembers?_eq (field : Field) (found : Option UInt64) (tokens : List Token) :
    field.readMembers? found tokens =
      (field.readMember? found tokens).bind fun (found, tail) => field.goOn? found tail := by
  rw [readMembers?]
  split
  next found rest h =>
    rw [h]
    rfl
  next found h =>
    rw [h]
    rfl
  next hcomma hclose =>
    cases h : field.readMember? found tokens with
    | none => rfl
    | some p =>
      obtain ⟨after, tail⟩ := p
      rw [Option.bind_some]
      change none = field.goOn? after tail
      unfold goOn?
      split
      next rest => exact (hcomma after rest h).elim
      next => exact (hclose after h).elim
      next => rfl

theorem readMember?_other (hname : name ≠ field.name) (hskip : Part.value.Skips tokens)
    (found : Option UInt64) (tail : List Token) :
    field.readMember? found (.text (utf16 name) :: .colon :: (tokens ++ tail)) = some (found, tail) := by
  rw [readMember?, decodeUnits_utf16]
  simp only [if_neg hname]
  rw [hskip, skipRest?_nil]
  rfl

theorem readMember?_again (value : UInt64) (tail : List Token) :
    field.readMember? (some value) (.text (utf16 field.name) :: .colon :: tail) = none := by
  rw [readMember?, decodeUnits_utf16]
  simp only [if_true, Option.isSome_some]

theorem readMember?_first (tail : List Token) :
    field.readMember? none (.text (utf16 field.name) :: .colon :: tail) =
      (readValue? tail).map fun (value, rest) => (some value, rest) := by
  rw [readMember?, decodeUnits_utf16]
  simp only [if_true, Option.isSome_none, Bool.false_eq_true, if_false]

theorem readValue?_numeral (v : UInt64) (tail : List Token) :
    readValue? (.number (some v.toNat) :: tail) = some (v, tail) := by
  rw [readValue?, if_pos v.toNat_lt_size]
  exact congrArg (fun value => some (value, tail)) UInt64.ofNat_toNat

theorem rest_of_readValue? (hskip : Part.value.Skips tokens) {v : UInt64} {rest : List Token}
    (h : readValue? (tokens ++ tail) = some (v, rest)) : rest = tail := by
  unfold readValue? at h
  split at h
  next n more hnumber =>
    split at h
    · obtain ⟨-, rfl⟩ := Prod.mk.inj (Option.some.inj h)
      have hpassed := hskip [] tail
      rw [hnumber, skipValue?, skipRest?_nil, skipRest?_nil] at hpassed
      exact Option.some.inj hpassed
    · cases h
  next => cases h

/-- What comes of members that give the field these values, by what was found before them. -/
structure Settles (field : Field) (known : List (List Char)) (result : Option UInt64 → Option UInt64) :
    Prop where
  absent : known = [] → ∀ found, result found = some (found.getD field.default)
  again : known ≠ [] → ∀ v, result (some v) = none
  once : ∀ digits v, known = [digits] → Numeral digits v → result none = some v
  repeated : 2 ≤ known.length → result none = none

theorem settles_closeBrace (field : Field) : field.Settles [] (field.goOn? · [.closeBrace]) where
  absent _ _ := rfl
  again h := (h rfl).elim
  once _ _ h := by cases h
  repeated h := by cases h

theorem Settles.other (h : field.Settles known (field.goOn? · tail)) (hname : name ≠ field.name)
    (hskip : Part.value.Skips tokens) :
    field.Settles known
      (field.readMembers? · (.text (utf16 name) :: .colon :: (tokens ++ tail))) := by
  have hresult : ∀ found, field.readMembers? found (.text (utf16 name) :: .colon :: (tokens ++ tail)) =
      field.goOn? found tail := by
    intro found
    rw [readMembers?_eq, readMember?_other hname hskip, Option.bind_some]
  simp only [hresult]
  exact h

theorem Settles.found (h : field.Settles known (field.goOn? · tail)) (hskip : Part.value.Skips tokens)
    (hnumeral : ∀ v, Numeral value v → tokens = [.number (some v.toNat)]) :
    field.Settles (value :: known)
      (field.readMembers? · (.text (utf16 field.name) :: .colon :: (tokens ++ tail))) where
  absent hnil := by cases hnil
  again _ v := by rw [readMembers?_eq, readMember?_again, Option.bind_none]
  once digits v hknown hdigits := by
    obtain ⟨rfl, hrest⟩ := List.cons.inj hknown
    rw [readMembers?_eq, readMember?_first, hnumeral v hdigits, List.singleton_append,
      readValue?_numeral]
    exact h.absent hrest (some v)
  repeated hlength := by
    have hknown : known ≠ [] := List.length_pos_iff.mp (Nat.le_of_succ_le_succ hlength)
    rw [readMembers?_eq, readMember?_first]
    cases hvalue : readValue? (tokens ++ tail) with
    | none => rfl
    | some p =>
      obtain ⟨v, rest⟩ := p
      obtain rfl := rest_of_readValue? hskip hvalue
      exact h.again hknown v

theorem settles_member {members : List (List Char × List Char)}
    (h : field.Settles (valuesOf field.name members) (field.goOn? · tail))
    (hskip : Part.value.Skips tokens)
    (hnumeral : ∀ v, Numeral value v → tokens = [.number (some v.toNat)]) :
    field.Settles (valuesOf field.name ((name, value) :: members))
      (field.readMembers? · (.text (utf16 name) :: .colon :: (tokens ++ tail))) := by
  by_cases hname : name = field.name
  · have hvalues : valuesOf field.name ((name, value) :: members) =
        value :: valuesOf field.name members := by
      simp only [valuesOf, List.filter_cons, hname, decide_true, if_true, List.map_cons]
    rw [hvalues, hname]
    exact h.found hskip hnumeral
  · have hvalues : valuesOf field.name ((name, value) :: members) = valuesOf field.name members := by
      simp only [valuesOf, List.filter_cons, hname, decide_false, Bool.false_eq_true, if_false]
    rw [hvalues]
    exact h.other hname hskip

end Field

theorem Members.exists_settles (field : Field) {members : List (List Char × List Char)} {cs : List Char}
    (h : Members members cs) :
    ∃ name tokens, Reads cs (.text name :: tokens) ∧ field.Settles (valuesOf field.name members)
      (field.readMembers? · (.text name :: tokens ++ [.closeBrace])) := by
  induction h with
  | last hmember =>
    obtain ⟨tokens, hread, hskip, hnumeral⟩ := hmember.exists_reads
    have hclose : field.Settles (valuesOf field.name []) (field.goOn? · [.closeBrace]) :=
      field.settles_closeBrace
    exact ⟨_, _, hread, Field.settles_member hclose hskip hnumeral⟩
  | @more name value cs comma members rest hmember hcomma _ ih =>
    obtain ⟨tokens, hread, hskip, hnumeral⟩ := hmember.exists_reads
    obtain ⟨next, more, hread', hsettles⟩ := ih
    have hread'' : Reads (cs ++ comma ++ rest)
        (.text (utf16 name) :: (.colon :: (tokens ++ .comma :: .text next :: more))) := by
      simpa only [List.cons_append, List.append_assoc, List.nil_append] using
        (hread.sign hcomma rfl).append hread'
    have htail : field.Settles (valuesOf field.name members)
        (field.goOn? · (.comma :: (.text next :: more ++ [.closeBrace]))) := hsettles
    have hmembers : field.Settles (valuesOf field.name ((name, value) :: members))
        (field.readMembers? · (.text (utf16 name) :: .colon ::
          (tokens ++ .comma :: (.text next :: more ++ [.closeBrace])))) :=
      Field.settles_member htail hskip hnumeral
    refine ⟨_, _, hread'', ?_⟩
    simpa only [List.cons_append, List.append_assoc] using hmembers

theorem Object.exists_settles (field : Field) {members : List (List Char × List Char)} {cs : List Char}
    (h : Object members cs) :
    ∃ result, result none = field.ofJson? cs ∧
      field.Settles (valuesOf field.name members) result := by
  cases h with
  | empty hl hr =>
    have hread := ((hl.delimited rfl).append (hr.delimited rfl)).reads
    refine ⟨(field.goOn? · [.closeBrace]), ?_, field.settles_closeBrace⟩
    rw [Field.ofJson?, hread.tokens?_eq]
    rfl
  | members hl hmembers hr =>
    obtain ⟨name, tokens, hread, hsettles⟩ := hmembers.exists_settles field
    have hread' := ((hl.delimited rfl).append (hread.sign hr rfl)).reads
    refine ⟨_, ?_, hsettles⟩
    rw [Field.ofJson?, hread'.tokens?_eq]
    rfl

namespace Field
variable {field : Field} {members : List (List Char × List Char)} {cs digits : List Char}

theorem ofJson?_absent (h : Object members cs) (hvalues : valuesOf field.name members = []) :
    field.ofJson? cs = some field.default := by
  obtain ⟨result, hresult, hsettles⟩ := h.exists_settles field
  exact hresult.symm.trans (hsettles.absent hvalues none)

theorem ofJson?_once {value : UInt64} (h : Object members cs)
    (hvalues : valuesOf field.name members = [digits]) (hdigits : Numeral digits value) :
    field.ofJson? cs = some value := by
  obtain ⟨result, hresult, hsettles⟩ := h.exists_settles field
  exact hresult.symm.trans (hsettles.once digits value hvalues hdigits)

theorem ofJson?_repeated (h : Object members cs) (hvalues : 2 ≤ (valuesOf field.name members).length) :
    field.ofJson? cs = none := by
  obtain ⟨result, hresult, hsettles⟩ := h.exists_settles field
  exact hresult.symm.trans (hsettles.repeated hvalues)

/-- The name stands in a JSON text as it is, with no escape. -/
def isPlain (field : Field) : Bool := field.name.all fun c => c ≠ '"' ∧ c ≠ '\\' ∧ ' ' ≤ c

theorem spells_name (hplain : field.isPlain) : Spells field.name (utf16 field.name) :=
  spells_plain fun c hc => of_decide_eq_true (List.all_eq_true.mp hplain c hc)

theorem toJson_eq (field : Field) (value : UInt64) : field.toJson value =
    '{' :: '"' :: (field.name ++ '"' :: ':' :: (Nat.toDigits 10 value.toNat ++ ['}'])) := by
  simp only [toJson, List.cons_append, List.nil_append, List.append_assoc]

theorem numeral_toDigits (value : UInt64) : Numeral (Nat.toDigits 10 value.toNat) value :=
  ⟨integer_toDigits _, Nat.ofDigitChars_toDigits (by decide) (by decide)⟩

theorem object_toJson (hplain : field.isPlain) (value : UInt64) :
    Object [(field.name, Nat.toDigits 10 value.toNat)] (field.toJson value) := by
  have hmember := Member.mk (.mk (spells_name hplain)) (.bare ':') (integer_toDigits value.toNat).written
  have hobject := Object.members (.bare '{') (.last hmember) (.bare '}')
  rw [toJson_eq]
  simpa only [List.cons_append, List.nil_append, List.append_assoc] using hobject

theorem ofJson?_toJson (hplain : field.isPlain) (value : UInt64) :
    field.ofJson? (field.toJson value) = some value := by
  refine ofJson?_once (object_toJson hplain value) ?_ (numeral_toDigits value)
  simp only [valuesOf, List.filter_cons, decide_true, if_true, List.filter_nil, List.map_cons,
    List.map_nil]

end Field

/-- The laws of a JSON form of settings that are one 64-bit value, held in a field of that name. -/
structure JsonForm {σ : Type} (name : List Char) (default : σ) (ofValue : UInt64 → σ)
    (ofJson? : String → Option σ) (toJson : σ → String) : Prop where
  printed : ∀ value, (toJson (ofValue value)).toList =
    '{' :: '"' :: (name ++ '"' :: ':' :: (Nat.toDigits 10 value.toNat ++ ['}']))
  read_printed : ∀ value, ofJson? (toJson (ofValue value)) = some (ofValue value)
  printed_again : ∀ json settings, ofJson? json = some settings →
    ∃ again, ofJson? (toJson settings) = some again ∧ again = settings ∧ toJson again = toJson settings
  absent : ∀ members json, Object members json.toList → valuesOf name members = [] →
    ofJson? json = some default
  once : ∀ members json digits value, Object members json.toList → valuesOf name members = [digits] →
    Numeral digits value → ofJson? json = some (ofValue value)
  repeated : ∀ members json, Object members json.toList → 2 ≤ (valuesOf name members).length →
    ofJson? json = none

theorem Field.jsonForm {σ : Type} {field : Field} (hplain : field.isPlain) (ofValue : UInt64 → σ)
    (value : σ → UInt64) (hvalue : ∀ v, value (ofValue v) = v) :
    JsonForm field.name (ofValue field.default) ofValue
      (fun json => (field.ofJson? json.toList).map ofValue)
      (fun settings => String.ofList (field.toJson (value settings))) := by
  have hread : ∀ v, (field.ofJson? (String.ofList (field.toJson v)).toList).map ofValue =
      some (ofValue v) := by
    intro v
    rw [String.toList_ofList, field.ofJson?_toJson hplain, Option.map_some]
  refine ⟨?printed, ?read_printed, ?printed_again, ?absent, ?once, ?repeated⟩
  case printed =>
    intro v
    rw [hvalue, String.toList_ofList, toJson_eq]
  case read_printed =>
    intro v
    rw [hvalue]
    exact hread v
  case printed_again =>
    intro json settings h
    obtain ⟨v, -, rfl⟩ := Option.map_eq_some_iff.1 h
    refine ⟨ofValue v, ?_, rfl, rfl⟩
    rw [hvalue]
    exact hread v
  case absent =>
    intro members json hobject hnone
    rw [ofJson?_absent hobject hnone, Option.map_some]
  case once =>
    intro members json digits v hobject hone hdigits
    rw [ofJson?_once hobject hone hdigits, Option.map_some]
  case repeated =>
    intro members json hobject htwo
    rw [ofJson?_repeated hobject htwo, Option.map_none]

theorem LengthSettings.isPlain_field : field.isPlain := by decide

theorem BufferSettings.isPlain_field : field.isPlain := by decide

theorem settings_json :
    JsonForm "max_encoded_length".toList (⟨0x7FFFFFFFFFFFFFFF⟩ : LengthSettings) LengthSettings.mk
      LengthSettings.ofJson? LengthSettings.toJson ∧
    JsonForm "buffer_capacity".toList (⟨8192⟩ : BufferSettings) BufferSettings.mk
      BufferSettings.ofJson? BufferSettings.toJson :=
  ⟨Field.jsonForm LengthSettings.isPlain_field LengthSettings.mk LengthSettings.maxLength fun _ => rfl,
    Field.jsonForm BufferSettings.isPlain_field BufferSettings.mk BufferSettings.capacity fun _ => rfl⟩

theorem settings_json_nested :
    (∃ members,
      Object members "\x7b\"x\":[\x7b\"buffer_capacity\":1\x7d], \"buffer_capacity\":5\x7d".toList ∧
      valuesOf "buffer_capacity".toList members = ["5".toList]) ∧
    Numeral "5".toList 5 ∧
    BufferSettings.ofJson? "\x7b\"x\":[\x7b\"buffer_capacity\":1\x7d], \"buffer_capacity\":5\x7d" =
      some ⟨5⟩ := by
  have hkey : Quoted "\"x\"".toList (utf16 "x".toList) :=
    .mk (spells_plain (List.forall_mem_singleton.mpr (by decide)))
  have hname : Quoted "\"buffer_capacity\"".toList (utf16 "buffer_capacity".toList) :=
    .mk (Field.spells_name BufferSettings.isPlain_field)
  have hinner : Written .member "\"buffer_capacity\":1".toList :=
    .member hname (.bare ':') (integer_toDigits 1).written
  have hdeep : Written .value "[\x7b\"buffer_capacity\":1\x7d]".toList :=
    .array (.bare '[') (.lastValue (.object (.bare '{') (.lastMember hinner) (.bare '}'))) (.bare ']')
  have hfive : Member "buffer_capacity".toList "5".toList "\"buffer_capacity\":5".toList :=
    .mk hname (.bare ':') (integer_toDigits 5).written
  have hblanks : Blanks [] := fun _ h => by cases h
  have hcomma : Sign ',' [',', ' '] := .mk hblanks (List.forall_mem_singleton.mpr (.inl rfl))
  have hmembers := Members.more (.mk hkey (.bare ':') hdeep) hcomma (.last hfive)
  have hobject := Object.members (.bare '{') hmembers (.bare '}')
  have hnumeral : Numeral "5".toList 5 := Field.numeral_toDigits 5
  exact ⟨⟨_, hobject, by decide⟩, hnumeral,
    settings_json.2.once _ _ "5".toList 5 hobject (by decide) hnumeral⟩

end StrictUtf8
