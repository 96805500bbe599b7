/-
A result as it is printed: one JSON document, or, in the other formats, lines of its sorted fields.
-/
import ResultCache.Json.Format
import ResultCache.Report.Lines

namespace ResultCache.Report

inductive Format where
  | human
  | json
  | yaml
  deriving DecidableEq, Repr

/-- How results are to be printed. -/
structure Style where
  format : Format := .human
  /-- Whether a JSON document is spread over lines. -/
  pretty : Bool := false
  /-- No headings at zero; more talk from two on. -/
  verbosity : Nat := 1
  deriving DecidableEq, Repr

/-- Lines, each with its end. -/
def unlines (ls : List String) : String := String.join (ls.map (· ++ "\n"))

/-- The printed form of a result; people are told what it is, unless they want quiet. -/
def output (format : Json.TextFormat) (style : Style) (heading : String) (v : Json) : String :=
  match style.format with
  | .json => unlines [if style.pretty then format.pretty v else format.compact v]
  | .yaml => unlines (lines format.compact .program v.sorted)
  | .human =>
    unlines ((if 0 < style.verbosity then [heading, ""] else []) ++
      lines format.compact .person v.sorted)

end ResultCache.Report
