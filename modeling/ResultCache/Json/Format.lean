/-
Texts of JSON values. Which characters a value is written with, and what is found in a text, is
settled by whoever provides the format; the rest of the library only writes values and reads trees.
-/
import ResultCache.Json.Tree

namespace ResultCache.Json

/-- A way to write JSON values and to read JSON texts. -/
structure TextFormat where
  /-- The text of a value without blanks. -/
  compact : Json → String
  /-- The text of a value, one item or field a line. -/
  pretty : Json → String
  /-- What is found in a text, if it is one document. -/
  read : String → Option Tree

/-- What is read from the compact text of a value. -/
def TextFormat.reread? {α : Type} (f : TextFormat) (v : Json) (read : Tree → Option α) : Option α :=
  (f.read (f.compact v)).bind read

end ResultCache.Json
