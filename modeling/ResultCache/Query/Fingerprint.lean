/-
The lookup identity of a query. The key covers the index, the text, the options, the filters in
order and the signature of the sorting schema. The hashes of the filters are kept beside it, so that
queries whose keys happen to agree are still told apart by their filters.
-/
import ResultCache.Entry
import ResultCache.Query.Basic
import ResultCache.Query.Schema
import ResultCache.Query.Word

namespace ResultCache

/-! ## Spelling -/

/-- A list: its length, then its items. -/
def listWords {α : Type} (words : α → List Word) (xs : List α) : List Word :=
  .size xs.length :: xs.flatMap words

def flagWord (b : Bool) : Word := .unsigned (if b then 1 else 0)

/-- The kind of a condition, its attribute, its content, and whether it excludes. -/
def Filter.words (f : Filter) : List Word :=
  (match f.condition with
    | .values allowed =>
      .unsigned 0 :: .text f.attr :: listWords (fun v => [.signed v]) allowed
    | .range min max => [.unsigned 1, .text f.attr, .signed min, .signed max]
    | .floatRange min max =>
      [.unsigned 2, .text f.attr, .unsigned min.bits.toUInt64, .unsigned max.bits.toUInt64]
    | .strings allowed =>
      .unsigned 3 :: .text f.attr :: listWords (fun s => [.text s]) allowed) ++
    [flagWord f.exclude]

def Ranking.words : Ranking → List Word
  | .proximityBm25 => [.unsigned 0]
  | .bm25 => [.unsigned 1]
  | .none => [.unsigned 2]
  | .wordCount => [.unsigned 3]
  | .expr text => [.unsigned 4, .text text]

def QueryOptions.words (o : QueryOptions) : List Word :=
  o.ranking.words ++
    listWords (fun (field, weight) => [.text field, .unsigned weight.toUInt64])
      o.fieldWeights.entries ++
    .unsigned o.maxMatches :: listWords (fun s => [.text s]) o.fields

def ColumnKind.word : ColumnKind → Word
  | .integer => .unsigned 0
  | .bigInt => .unsigned 1
  | .float => .unsigned 2
  | .string => .unsigned 3
  | .timestamp => .unsigned 4

/-- A column; an empty expression differs from none. -/
def Column.words (c : Column) : List Word :=
  .text c.name :: c.kind.word ::
    match c.expr with
    | none => [.unsigned 0]
    | some text => [.unsigned 1, .text text]

def Schema.words (s : Schema) : List Word := listWords Column.words s.columns

/-! ## Hashes -/

def Filter.hash (hash : Hasher) (f : Filter) : UInt64 := hash f.words

/-- The signature of a schema. -/
def Schema.signature (hash : Hasher) (s : Schema) : UInt64 := hash s.words

namespace Fingerprint

/-- What the key of a query is the hash of. -/
def keyWords (index : Int64) (text : String) (options : QueryOptions) (filterHashes : List UInt64)
    (signature : UInt64) : List Word :=
  .signed index :: .text text ::
    (options.words ++ listWords (fun h => [.unsigned h]) filterHashes ++ [.unsigned signature])

/-- The fingerprint of the parts of a query. -/
def ofParts (hash : Hasher) (index : Int64) (text : String) (options : QueryOptions)
    (filters : List Filter) (signature : UInt64) : Fingerprint :=
  let filterHashes := filters.map (Filter.hash hash)
  { key := hash (keyWords index text options filterHashes signature), filterHashes }

/-- The fingerprint of a query on an index, sorted under a schema of the given signature. -/
def ofQuery (hash : Hasher) (index : Int64) (query : Query) (signature : UInt64) : Fingerprint :=
  ofParts hash index query.text query.options query.filters signature

end Fingerprint

end ResultCache
