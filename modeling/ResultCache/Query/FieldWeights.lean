/-
Weights of fields: every field at most once, sorted by name, so that equal weights are equal data
in whatever order they were given.
-/
import ResultCache.Named

namespace ResultCache

/-- Weights of fields, sorted by field. -/
structure FieldWeights where
  entries : List (String × UInt32)
  sorted : Named.Sorted entries
  deriving DecidableEq, Repr

namespace FieldWeights

/-- No weights. -/
def empty : FieldWeights := ⟨[], .nil⟩

instance : Inhabited FieldWeights := ⟨empty⟩

/-- Sets the weight of a field. -/
def insert (ws : FieldWeights) (field : String) (weight : UInt32) : FieldWeights :=
  ⟨Named.insert field weight ws.entries, Named.insert_sorted ws.sorted⟩

/-- Weights set one after another. -/
def ofList (ps : List (String × UInt32)) : FieldWeights := ⟨Named.sort ps, Named.sort_sorted ps⟩

/-- The weight of a field. -/
def get? (ws : FieldWeights) (field : String) : Option UInt32 := ws.entries.lookup field

end FieldWeights

end ResultCache
