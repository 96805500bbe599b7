/-
Queries, filters and schemas as JSON. Writing gives the fields in a fixed order; reading takes them
in any order, as `Tree.record?` says.
-/
import ResultCache.Json.Tree
import ResultCache.Query.Basic
import ResultCache.Query.Schema

namespace ResultCache

open Json

/-! ## Filters -/

/-- The name of a condition's kind and its fields. -/
def Condition.json : Condition → String × List (String × Json)
  | .values allowed => ("Values", [("values", .array (allowed.map ofInt64))])
  | .range min max => ("Range", [("min", ofInt64 min), ("max", ofInt64 max)])
  | .floatRange min max => ("FloatRange", [("min", ofSingle min), ("max", ofSingle max)])
  | .strings allowed => ("Strings", [("values", .array (allowed.map .string))])

def Filter.json (f : Filter) : Json :=
  let (kind, content) := f.condition.json
  .object [(kind, .object (("attr", .string f.attr) :: content ++ [("exclude", .bool f.exclude)]))]

/-- A filter whose condition has these fields and is read from them. -/
def Filter.ofRecord? (names : List String)
    (condition : List (String × Tree) → Option Condition) (t : Tree) : Option Filter := do
  let ms ← t.record? ("attr" :: names ++ ["exclude"])
  some
    { attr := ← Tree.member? "attr" Tree.text? ms
      condition := ← condition ms
      exclude := ← Tree.member? "exclude" Tree.bool? ms }

def Filter.ofTree? (t : Tree) : Option Filter :=
  match t.variant? with
  | some ("Values", some t) =>
    ofRecord? ["values"]
      (fun ms => (Tree.member? "values" (Tree.list? Tree.int64?) ms).map .values) t
  | some ("Range", some t) =>
    ofRecord? ["min", "max"]
      (fun ms => do
        some (.range (← Tree.member? "min" Tree.int64? ms) (← Tree.member? "max" Tree.int64? ms))) t
  | some ("FloatRange", some t) =>
    ofRecord? ["min", "max"]
      (fun ms => do
        some (.floatRange (← Tree.member? "min" Tree.single? ms)
          (← Tree.member? "max" Tree.single? ms))) t
  | some ("Strings", some t) =>
    ofRecord? ["values"]
      (fun ms => (Tree.member? "values" (Tree.list? Tree.text?) ms).map .strings) t
  | _ => none

/-! ## Options -/

def Ranking.json : Ranking → Json
  | .proximityBm25 => .string "ProximityBm25"
  | .bm25 => .string "Bm25"
  | .none => .string "None"
  | .wordCount => .string "WordCount"
  | .expr text => .object [("Expr", .string text)]

def Ranking.ofTree? (t : Tree) : Option Ranking :=
  match t.variant? with
  | some ("Expr", some t) => t.text?.map .expr
  | some (name, content) =>
    if Tree.isBare content then
      match name with
      | "ProximityBm25" => some .proximityBm25
      | "Bm25" => some .bm25
      | "None" => some .none
      | "WordCount" => some .wordCount
      | _ => Option.none
    else Option.none
  | Option.none => Option.none

def FieldWeights.json (ws : FieldWeights) : Json :=
  .object (ws.entries.map fun (field, weight) => (field, ofUInt32 weight))

/-- Weights of an object; of a field given twice the last one counts. -/
def FieldWeights.ofTree? (t : Tree) : Option FieldWeights := do
  let weights ← (← t.fields?).mapM fun (field, t) => t.uint32?.map fun weight => (field, weight)
  some (FieldWeights.ofList weights)

def QueryOptions.json (o : QueryOptions) : Json :=
  .object
    [("ranking", o.ranking.json), ("field_weights", o.fieldWeights.json),
      ("max_matches", ofUInt64 o.maxMatches), ("fields", .array (o.fields.map .string))]

def QueryOptions.ofTree? (t : Tree) : Option QueryOptions := do
  let ms ← t.record? ["ranking", "field_weights", "max_matches", "fields"]
  some
    { ranking := ← Tree.member? "ranking" Ranking.ofTree? ms
      fieldWeights := ← Tree.member? "field_weights" FieldWeights.ofTree? ms
      maxMatches := ← Tree.member? "max_matches" Tree.uint64? ms
      fields := ← Tree.member? "fields" (Tree.list? Tree.text?) ms }

/-! ## Queries -/

def Query.json (q : Query) : Json :=
  .object
    [("text", .string q.text), ("options", q.options.json),
      ("filters", .array (q.filters.map Filter.json))]

def Query.ofTree? (t : Tree) : Option Query := do
  let ms ← t.record? ["text", "options", "filters"]
  some
    { text := ← Tree.member? "text" Tree.text? ms
      options := ← Tree.member? "options" QueryOptions.ofTree? ms
      filters := ← Tree.member? "filters" (Tree.list? Filter.ofTree?) ms }

/-! ## Schemas -/

def ColumnKind.name : ColumnKind → String
  | .integer => "Integer"
  | .bigInt => "BigInt"
  | .float => "Float"
  | .string => "String"
  | .timestamp => "Timestamp"

/-- The kind of this name. -/
def ColumnKind.ofName? (name : String) : Option ColumnKind :=
  [ColumnKind.integer, .bigInt, .float, .string, .timestamp].find? fun kind => kind.name == name

def ColumnKind.ofTree? (t : Tree) : Option ColumnKind :=
  match t.variant? with
  | some (name, content) => if Tree.isBare content then ofName? name else none
  | none => none

def Column.json (c : Column) : Json :=
  .object
    [("name", .string c.name), ("kind", .string c.kind.name),
      ("expr", match c.expr with | some text => .string text | none => .null)]

/-- An expression, or null for none. -/
def Column.exprOfTree? : Tree → Option (Option String)
  | .null => some none
  | t => t.text?.map some

/-- A column; one without an expression may leave it out. -/
def Column.ofTree? (t : Tree) : Option Column := do
  let ms ← t.record? ["name", "kind", "expr"]
  some
    { name := ← Tree.member? "name" Tree.text? ms
      kind := ← Tree.member? "kind" ColumnKind.ofTree? ms
      expr := ← Tree.memberOr? "expr" Column.exprOfTree? none ms }

def Schema.json (s : Schema) : Json := .object [("columns", .array (s.columns.map Column.json))]

def Schema.ofTree? (t : Tree) : Option Schema := do
  let ms ← t.record? ["columns"]
  some { columns := ← Tree.member? "columns" (Tree.list? Column.ofTree?) ms }

end ResultCache
