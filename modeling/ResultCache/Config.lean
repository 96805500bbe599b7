/-
The budget and policy of a cache, and the admission rules that follow from them.
-/
import ResultCache.Error

namespace ResultCache

/-! ## Configuration -/

/-- Budget and policy of a cache. -/
structure Config where
  /-- Memory budget in bytes; without a positive one nothing is cached. -/
  maxBytes : Int64 := 16777216
  /-- Queries that took fewer milliseconds are not worth caching. -/
  thresholdMs : UInt32 := 3000
  /-- How many seconds an entry stays good. -/
  ttlSecs : Int64 := 60
  deriving DecidableEq, Repr, Inhabited

namespace Config

/-- The configuration used when none is given: 16 MiB, three seconds, one minute. -/
def standard : Config := {}

/-- A configuration that caches nothing. -/
def disabled : Config := { maxBytes := 0 }

/-- Whether anything is cached at all. -/
def isEnabled (c : Config) : Bool := decide (0 < c.maxBytes)

/-- The budget in bytes, nothing for a disabled cache. -/
def budget (c : Config) : Nat := c.maxBytes.toInt.toNat

/-- Refuses a negative lifetime. -/
def validate (c : Config) : Except CacheError Unit :=
  if c.ttlSecs < 0 then .error (.invalidConfig (.negativeLifetime c.ttlSecs)) else .ok ()

end Config

/-! ## Admission -/

/-- Which finished queries are worth caching. -/
structure Policy where
  enabled : Bool
  thresholdMs : UInt32
  deriving DecidableEq, Repr

namespace Policy

/-- The admission rules of a configuration. -/
def ofConfig (c : Config) : Policy := ⟨c.isEnabled, c.thresholdMs⟩

/-- Whether to record a query that is about to run. An earlier run of it that was too fast speaks
against it; with no earlier run it is recorded. -/
def shouldBuild (previousMs : Option UInt32) (p : Policy) : Bool :=
  p.enabled && previousMs.all fun ms => decide (p.thresholdMs ≤ ms)

/-- Whether to keep the result of a query that took `elapsedMs`. -/
def shouldStore (elapsedMs : UInt32) (p : Policy) : Bool :=
  p.enabled && decide (p.thresholdMs ≤ elapsedMs)

end Policy

end ResultCache
