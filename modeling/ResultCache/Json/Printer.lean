/-
JSON values, written: `compact` without any blanks, `pretty` with one item or field a line.
`TextFormat.standard` is JSON as it is read and written everywhere.
-/
import ResultCache.Json.Format
import ResultCache.Json.Parser

namespace ResultCache.Json

/-! ## Compact text -/

/-- Whether a number has a literal; infinities and NaN have none. -/
def Number.isFinite : Number → Bool
  | .double d => d.isFinite
  | .single s => s.isFinite
  | _ => true

/-- The token of a number. -/
def Number.token (n : Number) : Token := if n.isFinite then .number n.literal else .null

mutual

/-- The tokens of a value. -/
def tokens : Json → List Token
  | .null => [.null]
  | .bool b => [.bool b]
  | .number n => [n.token]
  | .string s => [.string (unitsOf s)]
  | .array items => .beginArray :: itemTokens items
  | .object fields => .beginObject :: fieldTokens fields

/-- The tokens of an array behind its opening bracket. -/
def itemTokens : List Json → List Token
  | [] => [.endArray]
  | v :: rest => tokens v ++ moreItemTokens rest

/-- The tokens of an array behind one of its items. -/
def moreItemTokens : List Json → List Token
  | [] => [.endArray]
  | v :: rest => .comma :: (tokens v ++ moreItemTokens rest)

/-- The tokens of an object behind its opening brace. -/
def fieldTokens : List (String × Json) → List Token
  | [] => [.endObject]
  | (key, v) :: rest => .string (unitsOf key) :: .colon :: (tokens v ++ moreFieldTokens rest)

/-- The tokens of an object behind one of its fields. -/
def moreFieldTokens : List (String × Json) → List Token
  | [] => [.endObject]
  | (key, v) :: rest =>
    .comma :: .string (unitsOf key) :: .colon :: (tokens v ++ moreFieldTokens rest)

end

/-- The text of a value without blanks. -/
def compact (v : Json) : String := String.ofList (v.tokens.flatMap Token.chars)

/-! ## Indented text -/

mutual

/-- The text of a value that stands at `depth`, one item or field a line. -/
def prettyAt (depth : Nat) : Json → String
  | .array (v :: rest) =>
    "[\n" ++ indentation (depth + 1) ++ prettyAt (depth + 1) v ++ prettyItems depth rest
  | .object ((key, v) :: rest) =>
    "\x7b\n" ++ indentation (depth + 1) ++ (Json.string key).compact ++ ": " ++
      prettyAt (depth + 1) v ++ prettyFields depth rest
  | v => v.compact

/-- The rest of an array behind one of its items. -/
def prettyItems (depth : Nat) : List Json → String
  | [] => "\n" ++ indentation depth ++ "]"
  | v :: rest => ",\n" ++ indentation (depth + 1) ++ prettyAt (depth + 1) v ++ prettyItems depth rest

/-- The rest of an object behind one of its fields. -/
def prettyFields (depth : Nat) : List (String × Json) → String
  | [] => "\n" ++ indentation depth ++ "\x7d"
  | (key, v) :: rest =>
    ",\n" ++ indentation (depth + 1) ++ (Json.string key).compact ++ ": " ++
      prettyAt (depth + 1) v ++ prettyFields depth rest

end

/-- The indented text of a value. -/
def pretty (v : Json) : String := v.prettyAt 0

/-! ## The format -/

/-- JSON as the standard has it. -/
def TextFormat.standard : TextFormat := ⟨Json.compact, Json.pretty, Tree.parse⟩

end ResultCache.Json
