/-
What a query engine asks of the cache. `Cache.search` serves a query: from an entry if there is
one, and else from the live ranker, recording what it delivers.
-/
import ResultCache.Ranker.Recorder
import ResultCache.Ranker.Replay

namespace ResultCache

universe u

/-- A ranker that serves a query, where live rankers are of type `σ`. -/
inductive Served (σ : Type u) where
  | replay (r : Replay)
  | live (s : σ)
  | recorded (r : Recorder σ)

/-- Answers one request at `now`; only a recorder changes the cache. -/
def Served.pull {σ : Type u} [Ranker σ] [Ranker.Bounded σ] (hash : Hasher) (p : Pull) (now : Moment)
    (cache : Cache) : Served σ → Reply × Served σ × Cache
  | .replay r => let (reply, r) := Ranker.pull p r; (reply, .replay r, cache)
  | .live s => let (reply, s) := Ranker.pull p s; (reply, .live s, cache)
  | .recorded r => let (reply, r, cache) := r.pull hash p now cache; (reply, .recorded r, cache)

/-- How a search went. -/
structure SearchOutcome (σ : Type u) where
  ranker : Except CacheError (Served σ)
  /-- Whether the live ranker was asked for. -/
  liveCalled : Bool

namespace Cache

variable {σ : Type u}

/-- The entry that answers a query on an index at the time of day `now`. -/
def lookup (hash : Hasher) (now : Instant) (index : Int64) (query : Query) (schema : Schema)
    (c : Cache) : Except Fault (Option Entry) × Cache :=
  let f := Fingerprint.ofQuery hash index query (schema.signature hash)
  c.find now index f.key f.filterHashes

/-- A draft for a query that is about to run, unless recording it is pointless. -/
def draft? (index : Int64) (previousMs : Option UInt32) (c : Cache) : Option Draft :=
  if c.policy.shouldBuild previousMs then some (Draft.start index) else none

/-- The ranker for a query that no entry answers: the live one, recorded where that makes sense. -/
def serveLive (now : Moment) (index : Int64) (query : Query) (schema : Schema) (live : σ)
    (c : Cache) : Served σ :=
  match c.draft? index none with
  | some draft => .recorded (Recorder.start live draft query schema now.steady)
  | none => .live live

/-- Serves a query at `now`. The live ranker is asked for only if no entry answers the query. -/
def search (hash : Hasher) (now : Moment) (index : Int64) (query : Query) (schema : Schema)
    (live : Unit → Except CacheError σ) (c : Cache) : Except Fault (SearchOutcome σ) × Cache :=
  match c.lookup hash now.wall index query schema with
  | (.error f, c) => (.error f, c)
  | (.ok (some e), c) => (.ok ⟨(Replay.startFor index e).map .replay, false⟩, c)
  | (.ok none, c) =>
    (.ok ⟨(live ()).map fun s => c.serveLive now index query schema s, true⟩, c)

end Cache

end ResultCache
