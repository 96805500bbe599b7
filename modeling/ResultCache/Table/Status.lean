/-
A view of a cache at one moment, as status reports show it.
-/
import ResultCache.Number.Binary

namespace ResultCache

structure Status where
  maxBytes : Int64 := 0
  thresholdMs : UInt32 := 0
  ttlSecs : Int64 := 0
  /-- Entries held. -/
  cachedQueries : UInt64 := 0
  /-- Bytes charged for them. -/
  usedBytes : UInt64 := 0
  /-- Lookups that found an entry. -/
  hits : UInt64 := 0
  /-- Lookups that did not. -/
  misses : UInt64 := 0
  /-- Entries dropped, for whatever reason. -/
  evictions : UInt64 := 0
  /-- Entries refused. -/
  rejected : UInt64 := 0
  deriving DecidableEq, Repr, Inhabited

/-- The share of lookups that found an entry, zero when there were none. Both counts are rounded to
doubles before they are divided. -/
def Status.hitRate (s : Status) : Double :=
  let lookups := s.hits + s.misses
  if lookups = 0 then Double.ofNat 0 else (Double.ofNat s.hits.toNat).div (Double.ofNat lookups.toNat)

end ResultCache
