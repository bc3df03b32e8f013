import StrictUtf8.Json.Number
import StrictUtf8.Json.Text

/-! JSON tokens and the lexer that reads them from a text. Blanks stand between tokens only. -/

namespace StrictUtf8.Json

inductive Token where
  | openBrace
  | closeBrace
  | openBracket
  | closeBracket
  | comma
  | colon
  /-- `true`, `false` or `null`. -/
  | word
  /-- A number, with its value if that is written with digits alone. -/
  | number (natural : Option Nat)
  | text (units : List UInt16)
deriving DecidableEq, Repr

def isBlank (c : Char) : Bool := c == ' ' || c == '\t' || c == '\n' || c == '\r'

def readToken? : List Char → Option (Token × List Char)
  | '{' :: rest => some (.openBrace, rest)
  | '}' :: rest => some (.closeBrace, rest)
  | '[' :: rest => some (.openBracket, rest)
  | ']' :: rest => some (.closeBracket, rest)
  | ',' :: rest => some (.comma, rest)
  | ':' :: rest => some (.colon, rest)
  | '"' :: rest => (readText? [] rest).map fun (units, rest) => (.text units, rest)
  | 't' :: 'r' :: 'u' :: 'e' :: rest => some (.word, rest)
  | 'f' :: 'a' :: 'l' :: 's' :: 'e' :: rest => some (.word, rest)
  | 'n' :: 'u' :: 'l' :: 'l' :: rest => some (.word, rest)
  | cs => (readNumber? cs).map fun (natural, rest) => (.number natural, rest)

theorem length_readToken? {cs rest : List Char} {token : Token}
    (h : readToken? cs = some (token, rest)) : rest.length < cs.length := by
  unfold readToken? at h
  split at h
  case h_7 =>
    obtain ⟨_, htext, h⟩ := Option.map_eq_some_iff.1 h
    cases h
    exact Nat.lt_succ_of_lt (length_readText? htext)
  case h_11 =>
    obtain ⟨_, hnumber, h⟩ := Option.map_eq_some_iff.1 h
    cases h
    exact length_readNumber? hnumber
  all_goals
    cases h
    simp only [List.length_cons]
    omega

def tokensFrom? (done : List Token) (cs : List Char) : Option (List Token) :=
  match _h : readToken? (cs.dropWhile isBlank) with
  | some (token, rest) => tokensFrom? (token :: done) rest
  | none => if cs.dropWhile isBlank = [] then some done.reverse else none
termination_by cs.length
decreasing_by
  exact Nat.lt_of_lt_of_le (length_readToken? _h) (List.dropWhile_suffix _).length_le

def tokens? (cs : List Char) : Option (List Token) := tokensFrom? [] cs

end StrictUtf8.Json
