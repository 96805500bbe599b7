/-
The tokens of a JSON text. `lex` cuts a text into tokens, dropping the blanks between them, and
`Token.chars` writes one.
-/
import ResultCache.Json.Literal
import ResultCache.Json.Text

namespace ResultCache.Json

/-- A token of a JSON text. -/
inductive Token where
  | beginArray
  | endArray
  | beginObject
  | endObject
  | comma
  | colon
  | null
  | bool (b : Bool)
  | number (l : Literal)
  | string (units : List TextUnit)
  deriving DecidableEq, Repr

/-- The text of a token. -/
def Token.chars : Token → List Char
  | .beginArray => ['[']
  | .endArray => [']']
  | .beginObject => ['\x7b']
  | .endObject => ['\x7d']
  | .comma => [',']
  | .colon => [':']
  | .null => ['n', 'u', 'l', 'l']
  | .bool true => ['t', 'r', 'u', 'e']
  | .bool false => ['f', 'a', 'l', 's', 'e']
  | .number l => l.chars
  | .string units => '"' :: (units.flatMap TextUnit.escape ++ ['"'])

/-- Whether a character may stand between tokens. -/
def isBlank (c : Char) : Bool := c == ' ' || c == '\t' || c == '\n' || c == '\x0d'

/-- The token at the front of a text that starts with no blank, and what follows it. -/
def Token.read : List Char → Option (Token × List Char)
  | '[' :: rest => some (.beginArray, rest)
  | ']' :: rest => some (.endArray, rest)
  | '\x7b' :: rest => some (.beginObject, rest)
  | '\x7d' :: rest => some (.endObject, rest)
  | ',' :: rest => some (.comma, rest)
  | ':' :: rest => some (.colon, rest)
  | 'n' :: 'u' :: 'l' :: 'l' :: rest => some (.null, rest)
  | 't' :: 'r' :: 'u' :: 'e' :: rest => some (.bool true, rest)
  | 'f' :: 'a' :: 'l' :: 's' :: 'e' :: rest => some (.bool false, rest)
  | '"' :: rest => (readUnits rest).map fun (units, r) => (.string units, r)
  | s => (Literal.read s).map fun (l, r) => (.number l, r)

theorem Token.read_length {s r : List Char} {t : Token} (h : Token.read s = some (t, r)) :
    r.length < s.length := by
  unfold Token.read at h
  split at h
  case h_10 rest =>
    simp only [Option.map_eq_some_iff, Prod.exists, Prod.mk.injEq] at h
    obtain ⟨_, _, h1, _, rfl⟩ := h
    have := readUnits_length h1
    simp only [List.length_cons]
    omega
  case h_11 =>
    simp only [Option.map_eq_some_iff, Prod.exists, Prod.mk.injEq] at h
    obtain ⟨_, _, h1, _, rfl⟩ := h
    exact Literal.read_length h1
  all_goals
    cases h
    simp only [List.length_cons]
    omega

/-- The tokens of a text. -/
def lex (s : List Char) : Option (List Token) :=
  match s with
  | [] => some []
  | c :: rest =>
    if isBlank c then lex rest
    else
      match _h : Token.read (c :: rest) with
      | none => none
      | some (t, r) => (lex r).map (t :: ·)
termination_by s.length
decreasing_by
  · simp
  · exact Token.read_length _h

end ResultCache.Json
