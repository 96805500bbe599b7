/-
The arguments of the command line tool: how to print, and what to do.
-/
import ResultCache.CommandLine.Grammar
import ResultCache.Config
import ResultCache.Report.Output
import ResultCache.Simulation

namespace ResultCache.CommandLine

open Report

/-! ## Settings -/

/-- The options before the subcommand. -/
structure Display where
  verbose : Nat := 0
  quiet : Bool := false
  format : Format := .human
  pretty : Bool := false
  deriving DecidableEq, Repr

/-- How talkative the tool is: not at all when quiet, and else as often as asked for. -/
def Display.verbosity (d : Display) : Nat := if d.quiet then 0 else max d.verbose 1

def Display.style (d : Display) : Style :=
  { format := d.format, pretty := d.pretty, verbosity := d.verbosity }

/-- Where a configuration comes from: a file, and values that go before those of the file. -/
structure ConfigSource where
  path : Option String := none
  maxBytes : Option Int64 := none
  thresholdMs : Option UInt32 := none
  ttlSecs : Option Int64 := none
  deriving DecidableEq, Repr

structure SimulateOptions where
  source : ConfigSource := {}
  workload : Workload := {}
  /-- The number of workers; by default one for every core. -/
  threads : Option UInt64 := none
  deriving DecidableEq, Repr

inductive Command where
  | config (source : ConfigSource)
  | simulate (options : SimulateOptions)
  deriving DecidableEq, Repr

structure Arguments where
  display : Display
  command : Command
  deriving DecidableEq, Repr

/-! ## Values -/

def formatValue (text : String) : Except Refusal Format :=
  match text with
  | "human" => .ok .human
  | "json" => .ok .json
  | "yaml" => .ok .yaml
  | _ => .error .invalidValue

/-- A path; there is no empty one. -/
def pathValue (text : String) : Except Refusal String :=
  if text.isEmpty then .error .invalidValue else .ok text

def int64Value (text : String) : Except Refusal Int64 :=
  match readInteger text with
  | some n =>
    if Int64.minValue.toInt ≤ n ∧ n ≤ Int64.maxValue.toInt then .ok (Int64.ofInt n)
    else .error .valueValidation
  | none => .error .valueValidation

/-- A number of 32 bits, which may be written with any sign. -/
def uint32Value (text : String) : Except Refusal UInt32 :=
  match readInteger text with
  | some n => if 0 ≤ n ∧ n < UInt32.size then .ok n.toNat.toUInt32 else .error .valueValidation
  | none => .error .valueValidation

/-- A number of 64 bits, written without a minus sign. -/
def uint64Value (text : String) : Except Refusal UInt64 :=
  match readNatural text with
  | some n => if n < UInt64.size then .ok n.toUInt64 else .error .valueValidation
  | none => .error .valueValidation

/-! ## Grammars -/

/-- An option whose value is read and then put into the settings. -/
def valueOpt {σ α : Type} (long : String) (short : Option Char) (read : String → Except Refusal α)
    (set : α → σ → σ) : Opt σ :=
  { long, short, action := .value fun text => (read text).map set }

def helpOpt {σ : Type} : Opt σ := { long := "help", short := some 'h', action := .stop .displayHelp }

/-- The options before the subcommand. They are counted up to 255. -/
def displayGrammar : Grammar Display :=
  { opts :=
      [{ long := "verbose", short := some 'v',
         action := .count fun d => { d with verbose := min (d.verbose + 1) 255 } },
       { long := "quiet", short := some 'q', action := .flag fun d => { d with quiet := true } },
       valueOpt "format" (some 'f') formatValue fun format d => { d with format },
       { long := "pretty", short := none, action := .flag fun d => { d with pretty := true } },
       helpOpt,
       { long := "version", short := some 'V', action := .stop .displayVersion }]
    commands := ["config", "simulate", "help"] }

/-- The options that give a configuration, for settings that have one inside. -/
def sourceOpts {σ : Type} (change : (ConfigSource → ConfigSource) → σ → σ) : List (Opt σ) :=
  [valueOpt "config" (some 'c') pathValue fun path => change fun s => { s with path := some path },
   valueOpt "max-bytes" none int64Value fun n => change fun s => { s with maxBytes := some n },
   valueOpt "threshold-ms" none uint32Value fun n =>
     change fun s => { s with thresholdMs := some n },
   valueOpt "ttl-secs" none int64Value fun n => change fun s => { s with ttlSecs := some n }]

def configGrammar : Grammar ConfigSource :=
  { opts := sourceOpts (fun change s => change s) ++ [helpOpt] }

/-- An option that puts a number into the workload. -/
def workloadOpt (long : String) (short : Option Char) (set : UInt64 → Workload → Workload) :
    Opt SimulateOptions :=
  valueOpt long short uint64Value fun n o => { o with workload := set n o.workload }

def simulateGrammar : Grammar SimulateOptions :=
  { opts := sourceOpts (fun change o => { o with source := change o.source }) ++
      [workloadOpt "queries" (some 'n') fun n w => { w with queries := n },
       workloadOpt "distinct" (some 'd') fun n w => { w with distinct := n },
       workloadOpt "indexes" none fun n w => { w with indexes := n },
       workloadOpt "max-matches" (some 'm') fun n w => { w with maxMatches := n },
       workloadOpt "invalidate-every" none fun n w => { w with invalidateEvery := n },
       valueOpt "threads" (some 't') uint64Value fun n o => { o with threads := some n },
       workloadOpt "seed" none fun n w => { w with seed := n },
       helpOpt] }

/-! ## Reading -/

/-- The settings of a subcommand. -/
def readOptions {σ : Type} (g : Grammar σ) (start : σ) (args : List String) : Except Refusal σ := do
  let s ← g.scan args { settings := start }
  let p ← s.parsing.settle
  .ok p.settings

/-- A configuration source that takes its file from the environment unless it names one. -/
def ConfigSource.withDefault (environment : Option String) (s : ConfigSource) : ConfigSource :=
  { s with path := s.path.or environment }

/-- The subcommand of this name. `help` asks for help on the commands named behind it; they have
none of their own. -/
def readCommand (environment : Option String) (name : String) (args : List String) :
    Except Refusal Command :=
  match name with
  | "config" => do
    .ok (.config ((← readOptions configGrammar {} args).withDefault environment))
  | "simulate" => do
    let o ← readOptions simulateGrammar {} args
    .ok (.simulate { o with source := o.source.withDefault environment })
  | _ =>
    match args with
    | [] => .error .displayHelp
    | [topic] =>
      .error (if displayGrammar.commands.contains topic then .displayHelp else .invalidSubcommand)
    | _ => .error .invalidSubcommand

/-- The arguments of a command line; `environment` names the configuration file used by default. -/
def Arguments.read (environment : Option String) (args : List String) :
    Except Refusal Arguments := do
  let s ← displayGrammar.scan args { settings := {} }
  match s.subcommand with
  | some (name, rest) =>
    let command ← readCommand environment name rest
    -- a value waiting in front of the subcommand is looked at last
    let p ← s.parsing.settle
    .ok { display := p.settings, command }
  | none =>
    let p ← s.parsing.settle
    .error (if p.given.isEmpty then .helpInstead else .missingSubcommand)

end ResultCache.CommandLine
