/-
The tree of a JSON text, by one step for every token. The steps keep the containers that are still
open on a stack, so depth is not limited.
-/
import ResultCache.Json.Token
import ResultCache.Json.Tree

namespace ResultCache.Json.Tree

/-- A container that is still open, with what it holds so far, last first. -/
inductive Open where
  | array (items : List Tree)
  /-- An object; its last key waits for a value. -/
  | object (fields : List (Option String × Tree)) (key : Option String)
  deriving Repr

/-- What may come next. -/
inductive Expecting where
  | value
  /-- A value, or the end of an array that was just opened. -/
  | firstItem
  /-- A key, or the end of an object that was just opened. -/
  | firstKey
  /-- A key of an object with these fields. -/
  | key (fields : List (Option String × Tree))
  /-- The colon behind a key of an object with these fields. -/
  | colon (fields : List (Option String × Tree)) (key : Option String)
  /-- The comma or the end behind an item or field of the innermost container. -/
  | more
  /-- Nothing: the text is complete. -/
  | nothing (whole : Tree)
  deriving Repr

/-- How far a text has been taken apart. -/
structure Progress where
  expecting : Expecting := .value
  /-- The open containers, innermost first. -/
  stack : List Open := []
  deriving Repr

namespace Progress

/-- Puts a finished value into the container around it. -/
def put (v : Tree) : List Open → Progress
  | [] => ⟨.nothing v, []⟩
  | .array items :: stack => ⟨.more, .array (v :: items) :: stack⟩
  | .object fields key :: stack => ⟨.more, .object ((key, v) :: fields) none :: stack⟩

/-- Starts a value. -/
def start (t : Token) (stack : List Open) : Option Progress :=
  match t with
  | .null => some (put .null stack)
  | .bool b => some (put (.bool b) stack)
  | .number l => some (put (.number l.number?) stack)
  | .string units => some (put (.string (textOf? units)) stack)
  | .beginArray => some ⟨.firstItem, .array [] :: stack⟩
  | .beginObject => some ⟨.firstKey, stack⟩
  | _ => none

/-- Takes in one token, if it may come next. -/
def step (p : Progress) (t : Token) : Option Progress :=
  match p.expecting, p.stack, t with
  | .value, stack, t => start t stack
  | .firstItem, .array items :: stack, .endArray => some (put (.array items.reverse) stack)
  | .firstItem, stack, t => start t stack
  | .firstKey, stack, .endObject => some (put (.object []) stack)
  | .firstKey, stack, .string units => some ⟨.colon [] (textOf? units), stack⟩
  | .key fields, stack, .string units => some ⟨.colon fields (textOf? units), stack⟩
  | .colon fields key, stack, .colon => some ⟨.value, .object fields key :: stack⟩
  | .more, .array items :: stack, .comma => some ⟨.value, .array items :: stack⟩
  | .more, .array items :: stack, .endArray => some (put (.array items.reverse) stack)
  | .more, .object fields _ :: stack, .comma => some ⟨.key fields, stack⟩
  | .more, .object fields _ :: stack, .endObject => some (put (.object fields.reverse) stack)
  | _, _, _ => none

end Progress

/-- The tree that tokens spell, if they spell exactly one. -/
def ofTokens? (ts : List Token) : Option Tree := do
  let p ← ts.foldlM Progress.step {}
  match p.expecting with
  | .nothing whole => some whole
  | _ => none

/-- The tree of a text. -/
def parse (text : String) : Option Tree := do ofTokens? (← lex text.toList)

end ResultCache.Json.Tree
