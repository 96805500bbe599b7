/-
The columns that the result sorter works with. Queries sorted by different schemas may see
different weights, so the schema takes part in the identity of a query.
-/

namespace ResultCache

inductive ColumnKind where
  | integer
  | bigInt
  | float
  | string
  | timestamp
  deriving DecidableEq, Repr

/-- A column: stored, or computed by an expression. -/
structure Column where
  name : String
  kind : ColumnKind
  expr : Option String := none
  deriving DecidableEq, Repr

/-- The columns in order. -/
structure Schema where
  columns : List Column := []
  deriving DecidableEq, Repr, Inhabited

end ResultCache
