/-
A synthetic workload driven through a cache. Every step draws a query, looks it up and, if no entry
answers it, runs its live ranker under a recorder; what came out is compared with what the live
ranker would deliver.
-/
import ResultCache.Number.Digits
import ResultCache.Ranker.Simple
import ResultCache.Search

namespace ResultCache

/-- How a workload is made up. -/
structure Workload where
  /-- How many queries are executed. -/
  queries : UInt64 := 10000
  /-- How many distinct queries there are. -/
  distinct : UInt64 := 500
  /-- How many indexes they are spread over. -/
  indexes : UInt64 := 4
  /-- The most matches of a query. -/
  maxMatches : UInt64 := 2000
  /-- One index is invalidated after every so many queries; zero means never. -/
  invalidateEvery : UInt64 := 0
  seed : UInt64 := 42
  deriving DecidableEq, Repr

/-- The random choices of a workload. -/
structure Draws where
  /-- The query of a step. -/
  query : Nat → UInt64
  /-- The matches of a query. -/
  live : UInt64 → List Match

namespace Workload

/-! ## Queries -/

/-- The query of a number; every third one has a filter. -/
def request (query : UInt64) : Query :=
  { text := "term" ++ decimal (query % 97).toNat ++ " term" ++ decimal query.toNat
    filters :=
      if query % 3 = 0 then [⟨"year", .range 2000 (2000 + (query % 20).toInt64), false⟩] else [] }

/-- The index of a query. -/
def indexOf (w : Workload) (query : UInt64) : Int64 := (query % max w.indexes 1).toInt64

/-- The index that is invalidated before a step, if any. -/
def victim? (w : Workload) (step : Nat) : Option Int64 :=
  let every := w.invalidateEvery.toNat
  if 0 < every ∧ 0 < step ∧ step % every = 0 then
    some ((step / every).toUInt64 % max w.indexes 1).toInt64
  else none

/-- The schema all queries are sorted by. -/
def schema : Schema := ⟨[⟨"weight", .integer, none⟩, ⟨"year", .integer, none⟩]⟩

end Workload

/-! ## Steps -/

/-- How one query went. -/
structure QueryOutcome where
  /-- Whether an entry answered it. -/
  hit : Bool
  /-- Whether something else came out than the live ranker delivers. -/
  mismatch : Bool
  deriving DecidableEq, Repr

/-- What stops a simulation. -/
inductive Stop where
  | fault (f : Fault)
  | error (e : CacheError)
  deriving DecidableEq, Repr

/-- A simulation's end in words. -/
def Stop.message : Stop → String
  | .error e => "Error: " ++ e.message
  | .fault (.lifetimeOutOfRange secs) =>
    let value := secs.toInt
    s!"a lifetime of {value} seconds is out of range"

namespace Workload

/-- Runs the live ranker of a query from `began` to `ended`, recorded if the cache wants that. -/
def runLive (hash : Hasher) (began ended : Moment) (index : Int64) (query : Query)
    (ms : List Match) (c : Cache) : Except CacheError (Array Match) × Cache :=
  let served := c.serveLive began index query schema (VectorRanker.ofList ms)
  match served.pull hash .all ended c with
  | (.all r, _, c) => (r, c)
  | (_, _, c) => (.ok #[], c)

/-- The cache once the index that is due before a step has been invalidated. -/
def invalidateDue (w : Workload) (step : Nat) (c : Cache) : Cache :=
  match w.victim? step with
  | some victim => (c.invalidate victim).2
  | none => c

/-- One step; its lookup is at `began`, and a live run ends at `ended`. -/
def step (hash : Hasher) (w : Workload) (d : Draws) (began ended : Moment) (step : Nat)
    (c : Cache) : Except Stop QueryOutcome × Cache :=
  let id := d.query step
  let index := w.indexOf id
  let expected := (d.live id).toArray
  -- the index is invalidated before the lookup of the same step
  match (w.invalidateDue step c).lookup hash began.wall index (request id) schema with
  | (.error f, c) => (.error (.fault f), c)
  | (.ok (some e), c) =>
    match (Replay.startFor index e).bind fun r => (Ranker.collect r).1 with
    | .ok ms => (.ok ⟨true, decide (ms ≠ expected)⟩, c)
    | .error err => (.error (.error err), c)
  | (.ok none, c) =>
    match runLive hash began ended index (request id) expected.toList c with
    | (.ok ms, c) => (.ok ⟨false, decide (ms ≠ expected)⟩, c)
    | (.error err, c) => (.error (.error err), c)

end Workload

/-- How far a simulation has come. -/
structure SimulationRun where
  cache : Cache
  /-- The outcomes so far, last first. -/
  outcomes : List QueryOutcome := []

namespace SimulationRun

/-- Takes a step from `began` to `ended`. -/
def advance (hash : Hasher) (w : Workload) (d : Draws) (began ended : Moment) (step : Nat)
    (r : SimulationRun) : Except Stop SimulationRun :=
  match w.step hash d began ended step r.cache with
  | (.ok o, cache) => .ok { cache, outcomes := o :: r.outcomes }
  | (.error s, _) => .error s

/-- The queries that an entry answered. -/
def hits (r : SimulationRun) : Nat := r.outcomes.countP (·.hit)

/-- The queries that came out wrong. -/
def mismatches (r : SimulationRun) : Nat := r.outcomes.countP (·.mismatch)

end SimulationRun

end ResultCache
