/-
What a reader finds in a JSON text. A number that fits no type and a string that spells no text are
still found: only who asks for their value misses it. `Tree.record?` and `Tree.variant?` are how
records and variants are read from what is found.
-/
import ResultCache.Json.Value

namespace ResultCache.Json

/-- A JSON text, taken apart. -/
inductive Tree where
  | null
  | bool (b : Bool)
  /-- A number, and which one if there is one that it means. -/
  | number (n : Option Number)
  /-- A string, and its text if it has one. -/
  | string (s : Option String)
  | array (items : List Tree)
  | object (fields : List (Option String × Tree))
  deriving Repr, Inhabited

namespace Tree

/-! ## Reading values -/

/-- The text of a string. -/
def text? : Tree → Option String
  | .string s => s
  | _ => none

def bool? : Tree → Option Bool
  | .bool b => some b
  | _ => none

def number? : Tree → Option Number
  | .number n => n
  | _ => none

/-- An integer, in the range of both signed and unsigned 64-bit numbers. -/
def int? (t : Tree) : Option Int :=
  match t.number? with
  | some (.natural n) => some n.toNat
  | some (.negative n) => some n.toInt
  | _ => none

def int64? (t : Tree) : Option Int64 :=
  match t.int? with
  | some n => if Int64.minValue.toInt ≤ n ∧ n ≤ Int64.maxValue.toInt then some (Int64.ofInt n) else none
  | none => none

def uint64? (t : Tree) : Option UInt64 :=
  match t.int? with
  | some n => if 0 ≤ n ∧ n < UInt64.size then some n.toNat.toUInt64 else none
  | none => none

def uint32? (t : Tree) : Option UInt32 :=
  match t.int? with
  | some n => if 0 ≤ n ∧ n < UInt32.size then some n.toNat.toUInt32 else none
  | none => none

/-- A number as the nearest single. An integer is rounded as it is, any other number as the double
it means. -/
def single? (t : Tree) : Option Single :=
  match t.number? with
  | some (.natural n) => some (Single.ofInt n.toNat)
  | some (.negative n) => some (Single.ofInt n.toInt)
  | some (.double d) => some (Single.ofDouble d)
  | some (.single s) => some s
  | none => none

/-- The items of an array, each read. -/
def list? {α : Type} (read : Tree → Option α) : Tree → Option (List α)
  | .array items => items.mapM read
  | _ => none

/-- The fields of an object, each key read as text. -/
def fields? : Tree → Option (List (String × Tree))
  | .object fields => fields.mapM fun (key, t) => key.map (·, t)
  | _ => none

/-! ## Reading records and variants -/

/-- The members of a record whose fields have these names. An object gives them by name, each at
most once, and may have further fields, which are skipped; an array gives them in order and may be
shorter. -/
def members? (names : List String) : Tree → Option (List (String × Tree))
  | .object fields => do
    let known := (← (Tree.object fields).fields?).filter fun (name, _) => names.contains name
    if (known.map Prod.fst).Nodup then some known else none
  | .array items => if items.length ≤ names.length then some (names.zip items) else none
  | _ => none

/-- The members of a record, where an array has to give all of them. -/
def record? (names : List String) (t : Tree) : Option (List (String × Tree)) :=
  match t with
  | .array items => if items.length = names.length then t.members? names else none
  | _ => t.members? names

/-- A member that has to be there. -/
def member? {α : Type} (name : String) (read : Tree → Option α) (ms : List (String × Tree)) :
    Option α :=
  (ms.lookup name).bind read

/-- A member that may be missing. -/
def memberOr? {α : Type} (name : String) (read : Tree → Option α) (missing : α)
    (ms : List (String × Tree)) : Option α :=
  match ms.lookup name with
  | some t => read t
  | none => some missing

/-- A variant by name, with its content if it is written with any. -/
def variant? : Tree → Option (String × Option Tree)
  | .string s => s.map (·, none)
  | .object [(key, t)] => key.map (·, some t)
  | _ => none

/-- Whether a variant that has no content is written in one of its two forms. -/
def isBare : Option Tree → Bool
  | none => true
  | some .null => true
  | _ => false

end Tree

/-! ## The value of a tree -/

mutual

/-- The value a tree means, its fields sorted. -/
def Tree.value? : Tree → Option Json
  | .null => some .null
  | .bool b => some (.bool b)
  | .number n => n.map .number
  | .string s => s.map .string
  | .array items => (Tree.itemValues? items).map .array
  | .object fields => (Tree.fieldValues? fields).map fun fs => .object (Named.sort fs)

def Tree.itemValues? : List Tree → Option (List Json)
  | [] => some []
  | t :: rest => do some ((← Tree.value? t) :: (← Tree.itemValues? rest))

def Tree.fieldValues? : List (Option String × Tree) → Option (List (String × Json))
  | [] => some []
  | (key, t) :: rest => do
    some ((← key, ← Tree.value? t) :: (← Tree.fieldValues? rest))

end

end ResultCache.Json
