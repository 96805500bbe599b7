/-
Attribute filters of a query. The cache does not apply them; it only tells them apart.
-/
import ResultCache.Number.Binary

namespace ResultCache

/-- What a filter asks of its attribute. -/
inductive Condition where
  | values (allowed : List Int64)
  | range (min max : Int64)
  | floatRange (min max : Single)
  | strings (allowed : List String)
  deriving DecidableEq, Repr

/-- A condition on one attribute, or, with `exclude`, its opposite. Float bounds are told apart by
their bits. -/
structure Filter where
  attr : String
  condition : Condition
  exclude : Bool := false
  deriving DecidableEq, Repr

end ResultCache
