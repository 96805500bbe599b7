/-
Configurations and statuses as JSON, and configuration files. Every field of a configuration may be
left out and then has its standard value; a status has to be complete.
-/
import ResultCache.Config
import ResultCache.Json.Format
import ResultCache.Table.Status

namespace ResultCache

open Json

/-! ## Configurations -/

def Config.json (c : Config) : Json :=
  .object
    [("max_bytes", ofInt64 c.maxBytes), ("threshold_ms", ofUInt32 c.thresholdMs),
      ("ttl_secs", ofInt64 c.ttlSecs)]

def Config.ofTree? (t : Tree) : Option Config := do
  let ms ← t.members? ["max_bytes", "threshold_ms", "ttl_secs"]
  some
    { maxBytes := ← Tree.memberOr? "max_bytes" Tree.int64? Config.standard.maxBytes ms
      thresholdMs := ← Tree.memberOr? "threshold_ms" Tree.uint32? Config.standard.thresholdMs ms
      ttlSecs := ← Tree.memberOr? "ttl_secs" Tree.int64? Config.standard.ttlSecs ms }

/-- The configuration in the content of a file, where there is a file with text. -/
def Config.ofFile (format : TextFormat) (content : Option String) : Except CacheError Config :=
  match content with
  | none => .error (.io "the configuration file cannot be read")
  | some text =>
    match (format.read text).bind Config.ofTree? with
    | none => .error .json
    | some c =>
      match c.validate with
      | .ok _ => .ok c
      | .error e => .error e

/-! ## Statuses -/

def Status.json (s : Status) : Json :=
  .object
    [("max_bytes", ofInt64 s.maxBytes), ("threshold_ms", ofUInt32 s.thresholdMs),
      ("ttl_secs", ofInt64 s.ttlSecs), ("cached_queries", ofUInt64 s.cachedQueries),
      ("used_bytes", ofUInt64 s.usedBytes), ("hits", ofUInt64 s.hits),
      ("misses", ofUInt64 s.misses), ("evictions", ofUInt64 s.evictions),
      ("rejected", ofUInt64 s.rejected)]

def Status.ofTree? (t : Tree) : Option Status := do
  let ms ← t.record?
    ["max_bytes", "threshold_ms", "ttl_secs", "cached_queries", "used_bytes", "hits", "misses",
      "evictions", "rejected"]
  some
    { maxBytes := ← Tree.member? "max_bytes" Tree.int64? ms
      thresholdMs := ← Tree.member? "threshold_ms" Tree.uint32? ms
      ttlSecs := ← Tree.member? "ttl_secs" Tree.int64? ms
      cachedQueries := ← Tree.member? "cached_queries" Tree.uint64? ms
      usedBytes := ← Tree.member? "used_bytes" Tree.uint64? ms
      hits := ← Tree.member? "hits" Tree.uint64? ms
      misses := ← Tree.member? "misses" Tree.uint64? ms
      evictions := ← Tree.member? "evictions" Tree.uint64? ms
      rejected := ← Tree.member? "rejected" Tree.uint64? ms }

end ResultCache
