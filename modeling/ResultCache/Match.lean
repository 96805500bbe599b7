/-
A ranked match, the unit that rankers deliver and the cache keeps.
-/

namespace ResultCache

/-- A document and the weight its ranker gave it. The cache reads meaning into neither. -/
structure Match where
  doc : UInt64
  weight : UInt32
  deriving DecidableEq, Repr, Inhabited

end ResultCache
