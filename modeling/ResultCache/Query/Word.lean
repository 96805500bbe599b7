/-
Typed values as they are hashed. A value is spelled as a sequence of words, each a number, a size or
a text, in such a way that no spelling is the beginning of another. Which hash a sequence then gets
is settled by whoever provides the hasher.
-/

namespace ResultCache

/-- One typed value written to a hash. -/
inductive Word where
  | unsigned (n : UInt64)
  | signed (n : Int64)
  | text (s : String)
  /-- The length of the list that follows. -/
  | size (n : Nat)
  deriving DecidableEq, Repr

/-- A hash for every sequence of words. -/
abbrev Hasher := List Word → UInt64

end ResultCache
