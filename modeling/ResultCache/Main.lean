/-
The command line tool: the commands on the real world. It leaves with 0 when a command succeeds, 1
when it fails, 2 when the arguments are refused and 101 on a lifetime without a result.
-/
import ResultCache.CommandLine.Run
import ResultCache.Json.Printer
import ResultCache.Random

namespace ResultCache.CommandLine

/-! ## This machine -/

/-- The text of a file, if it can be read and is text. -/
def readTextFile (path : String) : IO (Option String) := do
  try
    pure (String.fromUTF8? (← IO.FS.readBinFile path))
  catch _ => pure none

/-- How many cores a description of the processors lists; one where there is no description. -/
def coresOf (description : Option String) : Nat :=
  let ls := (description.getD "").splitOn "\n"
  max 1 (ls.countP fun l => "processor".toList.isPrefixOf l.toList)

/-- The clocks of this machine. The time of day is counted from the start of the machine, for want of
a calendar: only differences of it matter. -/
def readClocks : IO Moment := do
  let nanos ← IO.monoNanosNow
  pure { wall := Int.ofNat nanos, steady := Int.ofNat nanos }

/-- Files, standard output and the clocks of this machine, with the formats and hashes in use. -/
def localHost : IO (Host IO) := do
  let cores := coresOf (← readTextFile "/proc/cpuinfo")
  pure
    { readText := readTextFile
      print := fun text => do (← IO.getStdout).putStr text
      now := readClocks
      cores
      format := .standard
      hash := mixing
      draws := Workload.draws }

/-! ## Messages -/

/-- What to tell the user about a command line that gives no arguments. -/
def Refusal.message : Refusal → String
  | .unknownArgument => "error: unexpected argument found"
  | .invalidSubcommand => "error: unrecognized subcommand"
  | .invalidValue => "error: a value is missing or not one of the possible values"
  | .valueValidation => "error: invalid value for an option"
  | .argumentConflict => "error: an argument cannot be used multiple times"
  | .tooManyValues => "error: unexpected value for a flag"
  | .missingSubcommand => "error: a subcommand is required"
  | .displayVersion => "0.1.0"
  | .displayHelp | .helpInstead =>
    "Inspect and exercise the query result cache\n\nUsage: [OPTIONS] <COMMAND>\n\n" ++
      "Commands:\n  config    Show the effective cache configuration\n" ++
      "  simulate  Drive a synthetic query workload through the cache\n"

/-- The exit code of a command that did not get to its end. -/
def exitCode : Stop → UInt32
  | .error _ => 1
  | .fault _ => 101

end ResultCache.CommandLine

open ResultCache ResultCache.CommandLine

def main (args : List String) : IO UInt32 := do
  match Arguments.read (← IO.getEnv "SARISSA_QCACHE_CONFIG") args with
  | .error .displayHelp => IO.println Refusal.displayHelp.message; pure 0
  | .error .displayVersion => IO.println Refusal.displayVersion.message; pure 0
  | .error r => IO.eprintln r.message; pure 2
  | .ok a =>
    match ← a.run (← localHost) with
    | .ok _ => pure 0
    | .error stop => IO.eprintln stop.message; pure (exitCode stop)
