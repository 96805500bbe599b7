/-
A query as the cache sees it: its text, the options that decide which matches it has, and its
filters in the order in which they are applied.
-/
import ResultCache.Query.FieldWeights
import ResultCache.Query.Filter

namespace ResultCache

/-- How matches are weighed. -/
inductive Ranking where
  | proximityBm25
  | bm25
  /-- Every match weighs the same. -/
  | none
  | wordCount
  /-- An expression of the user. -/
  | expr (text : String)
  deriving DecidableEq, Repr

/-- What decides which matches a query has and what they weigh. -/
structure QueryOptions where
  ranking : Ranking := .proximityBm25
  fieldWeights : FieldWeights := FieldWeights.empty
  maxMatches : UInt64 := 0
  /-- The fields to search; none means all. -/
  fields : List String := []
  deriving DecidableEq, Repr

structure Query where
  text : String
  options : QueryOptions := {}
  filters : List Filter := []
  deriving DecidableEq, Repr

end ResultCache
