/-
The commands of the tool. What they need of the world outside, reading a file, printing, clocks, and
of others, how texts are written, values hashed and numbers drawn, is a `Host`; the same commands run
on the real one and on any other.
-/
import ResultCache.CommandLine.Arguments
import ResultCache.Table.Json

namespace ResultCache.CommandLine

open Report

/-- The world outside. -/
structure Host (m : Type → Type) where
  /-- The text of a file, if it can be read and is text. -/
  readText : String → m (Option String)
  print : String → m Unit
  now : m Moment
  cores : Nat
  format : Json.TextFormat
  hash : Hasher
  draws : Workload → Draws

/-! ## Configuration -/

/-- The configuration of a source whose file has this content. The file has to be good by itself,
and so has the result. -/
def ConfigSource.resolve (format : Json.TextFormat) (s : ConfigSource) (content : Option String) :
    Except CacheError Config := do
  let c ← match s.path with
    | some _ => Config.ofFile format content
    | none => .ok Config.standard
  let c : Config :=
    { maxBytes := s.maxBytes.getD c.maxBytes
      thresholdMs := s.thresholdMs.getD c.thresholdMs
      ttlSecs := s.ttlSecs.getD c.ttlSecs }
  c.validate
  .ok c

variable {m : Type → Type} [Monad m]

def resolveOn (host : Host m) (s : ConfigSource) : m (Except CacheError Config) := do
  let content ← match s.path with
    | some path => host.readText path
    | none => pure none
  pure (s.resolve host.format content)

/-! ## Simulation -/

/-- Takes the steps from the `done`-th on, each with its own times. -/
def simulateFrom (host : Host m) (w : Workload) (d : Draws) :
    Nat → Nat → SimulationRun → m (Except Stop SimulationRun)
  | 0, _, r => pure (.ok r)
  | left + 1, done, r => do
    let began ← host.now
    let ended ← host.now
    match r.advance host.hash w d began ended done with
    | .ok r => simulateFrom host w d left (done + 1) r
    | .error s => pure (.error s)

/-- Queries per second. -/
def rate (queries elapsed : Nat) : Double :=
  if elapsed = 0 then Double.ofNat 0 else Double.ofQuotient (queries * 1000000000) elapsed

/-- The report of a simulation that took `elapsed` nanoseconds. -/
def simulationReport (w : Workload) (threads : UInt64) (elapsed : Nat) (r : SimulationRun) : Json :=
  .object
    [("queries", .ofUInt64 w.queries), ("threads", .ofUInt64 threads),
      ("hits", .ofUInt64 r.hits.toUInt64),
      ("misses", .ofUInt64 (w.queries.toNat - r.hits).toUInt64),
      ("mismatches", .ofUInt64 r.mismatches.toUInt64),
      ("duration_ms", .ofUInt64 (elapsed / 1000000).toUInt64),
      ("queries_per_second", .ofDouble (rate w.queries.toNat elapsed)),
      ("status", r.cache.status.json)]

def simulate (host : Host m) (style : Style) (o : SimulateOptions) : m (Except Stop Unit) := do
  match ← resolveOn host o.source with
  | .error e => pure (.error (.error e))
  | .ok config =>
    let w := o.workload
    let threads := max (o.threads.getD host.cores.toUInt64) 1
    if 1 < style.verbosity then
      host.print
        ("Simulating " ++ decimal w.queries.toNat ++ " queries (" ++ decimal w.distinct.toNat ++
          " distinct) on " ++ decimal threads.toNat ++ " threads\n")
    let started ← host.now
    match ← simulateFrom host w (host.draws w) w.queries.toNat 0 { cache := Cache.create config } with
    | .error s => pure (.error s)
    | .ok r =>
      let ended ← host.now
      let report := simulationReport w threads (ended.steady - started.steady).toNat r
      host.print (output host.format style "Simulation completed" report)
      if 0 < r.mismatches then
        let text := decimal r.mismatches ++ " replayed results differed from live ranking"
        pure (.error (.error (.other text)))
      else pure (.ok ())

/-! ## Commands -/

def showConfig (host : Host m) (style : Style) (s : ConfigSource) : m (Except Stop Unit) := do
  match ← resolveOn host s with
  | .error e => pure (.error (.error e))
  | .ok config =>
    host.print (output host.format style "Effective query cache configuration" config.json)
    pure (.ok ())

/-- Executes the command of the arguments. -/
def Arguments.run (host : Host m) (a : Arguments) : m (Except Stop Unit) :=
  match a.command with
  | .config source => showConfig host a.display.style source
  | .simulate options => simulate host a.display.style options

end ResultCache.CommandLine
