/-
JSON values as they are written.
-/
import ResultCache.Named
import ResultCache.Number.Binary

namespace ResultCache

namespace Json

/-- A number that is no text. -/
inductive Number where
  | natural (n : UInt64)
  /-- An integer below zero. -/
  | negative (n : Int64)
  | double (d : Double)
  | single (s : Single)
  deriving DecidableEq, Repr

end Json

/-- A JSON value. Fields keep the order in which they are written. -/
inductive Json where
  | null
  | bool (b : Bool)
  | number (n : Json.Number)
  | string (s : String)
  | array (items : List Json)
  | object (fields : List (String × Json))
  deriving Repr, Inhabited

namespace Json

/-! ## Numbers -/

def ofUInt64 (n : UInt64) : Json := .number (.natural n)

def ofUInt32 (n : UInt32) : Json := ofUInt64 n.toUInt64

def ofInt64 (n : Int64) : Json := if 0 ≤ n then ofUInt64 n.toUInt64 else .number (.negative n)

def ofDouble (d : Double) : Json := .number (.double d)

def ofSingle (s : Single) : Json := .number (.single s)

/-! ## Layout -/

/-- Two blanks for every level. -/
def indentation (depth : Nat) : String := String.ofList (List.replicate (2 * depth) ' ')

/-! ## Sorted fields -/

mutual

/-- A value with the fields of all its objects sorted. -/
def sorted : Json → Json
  | .array items => .array (sortedItems items)
  | .object fields => .object (Named.sort (sortedFields fields))
  | v => v

def sortedItems : List Json → List Json
  | [] => []
  | v :: rest => sorted v :: sortedItems rest

def sortedFields : List (String × Json) → List (String × Json)
  | [] => []
  | (key, v) :: rest => (key, sorted v) :: sortedFields rest

end

end Json

end ResultCache
