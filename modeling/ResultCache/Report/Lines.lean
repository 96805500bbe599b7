/-
Reports as lines of `key: value`, records inside records indented. Read as YAML the lines give the
report back; for people byte counts are put into units. How a value is put into text, other than a
string or a record, is left to the format in use.
-/
import ResultCache.Json.Value
import ResultCache.Report.ByteUnits

namespace ResultCache.Report

/-- Who the lines are for. -/
inductive Audience where
  | person
  | program
  deriving DecidableEq, Repr

variable (text : Json → String)

/-- A value on one line: a string as it is, anything else by its text. -/
def scalar : Json → String
  | .string s => s
  | v => text v

/-- Whether the numbers under a key are byte counts. -/
def countsBytes (key : String) : Bool := "bytes".toList.isSuffixOf key.toList

/-- The value of a field on one line. -/
def fieldText (audience : Audience) (key : String) (v : Json) : String :=
  match v with
  | .number (.natural n) =>
    if audience = .person && countsBytes key then formatBytes n else scalar text v
  | _ => scalar text v

mutual

/-- The lines of a report at a depth of records. -/
def linesAt (audience : Audience) (depth : Nat) : Json → List String
  | .object fields => fieldLines audience depth fields
  | v => [scalar text v]

/-- The lines of the fields of a record; a field that is a record itself has its lines below its
key. -/
def fieldLines (audience : Audience) (depth : Nat) : List (String × Json) → List String
  | [] => []
  | (key, .object fields) :: rest =>
    (Json.indentation depth ++ key ++ ":") ::
      (fieldLines audience (depth + 1) fields ++ fieldLines audience depth rest)
  | (key, v) :: rest =>
    (Json.indentation depth ++ key ++ ": " ++ fieldText text audience key v) ::
      fieldLines audience depth rest

end

/-- The lines of a report. -/
def lines (audience : Audience) (v : Json) : List String := linesAt text audience 0 v

end ResultCache.Report
