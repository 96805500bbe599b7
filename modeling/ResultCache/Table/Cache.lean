/-
The cache of query results: entries under fingerprint keys, in a byte budget, dropped when they
grow old or make room. Every operation takes the cache and gives its answer together with the cache
afterwards; the counters record what happened.
-/
import ResultCache.Config
import ResultCache.Table.Slab
import ResultCache.Table.Status

namespace ResultCache

/-- A cache of query results. -/
structure Cache where
  config : Config
  slab : Slab := Slab.empty
  hits : UInt64 := 0
  misses : UInt64 := 0
  evictions : UInt64 := 0
  rejected : UInt64 := 0
  deriving Inhabited

namespace Cache

/-- An empty cache. -/
def create (config : Config) : Cache := { config }

/-! ## Counters -/

def countHit (c : Cache) : Cache := { c with hits := c.hits + 1 }

def countMiss (c : Cache) : Cache := { c with misses := c.misses + 1 }

def countEvictions (n : Nat) (c : Cache) : Cache := { c with evictions := c.evictions + n.toUInt64 }

def countRejected (c : Cache) : Cache := { c with rejected := c.rejected + 1 }

/-! ## Operations -/

/-- The entry under a key, if there is any, whatever its age, index and filters. -/
def peek? (key : UInt64) (c : Cache) : Option Entry := (c.slab.find? key).map Prod.snd

/-- Looks an entry up at `now`. An entry that has outlived the lifetime is dropped. One of another
index or with other filters is kept but not given out. A hit becomes the most recently used entry.
A lifetime that cannot be expressed stops the lookup, which then leaves no trace. -/
def find (now : Instant) (index : Int64) (key : UInt64) (filterHashes : List UInt64) (c : Cache) :
    Except Fault (Option Entry) × Cache :=
  match if c.config.isEnabled then c.slab.find? key else none with
  | none => (.ok none, c.countMiss)
  | some (slot, e) =>
    -- age goes before identity: a lookup for another index drops an old entry too
    match e.expired now c.config.ttlSecs with
    | .error f => (.error f, c)
    | .ok true =>
      match c.slab.remove? slot with
      | some (_, slab) => (.ok none, ({ c with slab }.countEvictions 1).countMiss)
      | none => (.ok none, c.countMiss)
    | .ok false =>
      if e.index = index ∧ e.filterHashes = filterHashes then
        (.ok (some e), { c with slab := c.slab.promote slot }.countHit)
      else (.ok none, c.countMiss)

/-- Files an entry under its key as the most recently used one, in place of any entry of that key.
Least recently used entries make room. An entry larger than the whole budget is refused, and so is
every entry while the cache is disabled. -/
def add (e : Entry) (c : Cache) : Bool × Cache :=
  let budget := c.config.budget
  if !c.config.isEnabled || decide (budget < e.sizeBytes) then (false, c.countRejected)
  else
    let (replaced, slab) :=
      match c.slab.keys[e.key]? with
      | some slot =>
        match c.slab.remove? slot with
        | some (_, slab) => (1, slab)
        | none => (0, c.slab)
      | none => (0, c.slab)
    -- room is made once the replaced entry no longer counts
    let (dropped, slab) := slab.trim (budget - e.sizeBytes)
    (true, { c with slab := slab.insert e }.countEvictions (replaced + dropped))

/-- Drops every entry of an index and tells how many there were. -/
def invalidate (index : Int64) (c : Cache) : Nat × Cache :=
  let (dropped, slab) := c.slab.removeIndex index
  (dropped, { c with slab }.countEvictions dropped)

/-- Replaces the configuration. A smaller budget is enforced at once; a disabled cache is emptied. -/
def configure (config : Config) (c : Cache) : Cache :=
  let (dropped, slab) := if config.isEnabled then c.slab.trim config.budget else c.slab.drain
  { c with config, slab }.countEvictions dropped

/-- Drops every entry. -/
def clear (c : Cache) : Cache :=
  let (dropped, slab) := c.slab.drain
  { c with slab }.countEvictions dropped

/-! ## Views -/

/-- The admission rules in force. -/
def policy (c : Cache) : Policy := Policy.ofConfig c.config

/-- How many entries are held. -/
def length (c : Cache) : Nat := c.slab.length

/-- Whether no entry is held. -/
def isEmpty (c : Cache) : Bool := c.length == 0

/-- The entries held, from the most to the least recently used. -/
def entries (c : Cache) : List Entry := c.slab.entries

/-- The state of the cache in numbers. -/
def status (c : Cache) : Status :=
  { maxBytes := c.config.maxBytes
    thresholdMs := c.config.thresholdMs
    ttlSecs := c.config.ttlSecs
    cachedQueries := c.length.toUInt64
    usedBytes := c.slab.usedBytes.toUInt64
    hits := c.hits
    misses := c.misses
    evictions := c.evictions
    rejected := c.rejected }

end Cache

end ResultCache
