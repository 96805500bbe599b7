/-
What can go wrong, kept as causes. `Damage` says how a packed stream of matches is broken,
`ConfigFault` why a configuration is refused, `Misuse` which operation made no sense;
`CacheError` gathers them with the failures of the world outside. `CacheError.message` is the
only place where an error is put into words.
-/

namespace ResultCache

/-! ## Causes -/

/-- How a packed stream of matches is broken. -/
inductive Damage where
  /-- The bytes end inside a number. -/
  | incompleteNumber
  /-- A number does not fit its width. -/
  | oversizedNumber
  /-- The bytes end while `count` matches are still expected. -/
  | missingMatches (count : Nat)
  /-- All matches are read and `count` bytes are left. -/
  | trailingBytes (count : Nat)
  /-- A frame announces `count` matches where `remaining` are still expected. -/
  | frameCount (count remaining : Nat)
  /-- A match points at entry `index` of a weight table of `size` entries. -/
  | weightIndex (index size : Nat)
  /-- Damage noticed elsewhere, in the words of whoever noticed it. -/
  | noted (text : String)
  deriving DecidableEq, Repr, Inhabited

/-- Why a configuration is refused. -/
inductive ConfigFault where
  | negativeLifetime (secs : Int64)
  | noted (text : String)
  deriving DecidableEq, Repr

/-- Which operation made no sense. -/
inductive Misuse where
  /-- An entry of one index is to be replayed for a query on another. -/
  | foreignEntry (entryIndex queryIndex : Int64)
  | noted (text : String)
  deriving DecidableEq, Repr

/-- Every error the library reports. A miss is none of them. -/
inductive CacheError where
  | io (detail : String)
  | corrupt (damage : Damage)
  | invalidConfig (fault : ConfigFault)
  | invalidOperation (misuse : Misuse)
  /-- A live ranker failed, for the reason it gave. -/
  | ranker (reason : String)
  /-- A text is not the JSON document that was expected. -/
  | json
  | other (text : String)
  /-- An error of another program part, with the whole of its text. -/
  | wrapped (text : String)
  deriving DecidableEq, Repr

/-! ## Wording -/

namespace Damage

def message : Damage → String
  | incompleteNumber => "Incomplete VarInt"
  | oversizedNumber => "VarInt overflow"
  | missingMatches count => s!"stream ended with {count} matches missing"
  | trailingBytes count => s!"{count} trailing bytes after last frame"
  | frameCount count remaining => s!"frame count {count} out of range ({remaining} remaining)"
  | weightIndex index size => s!"weight index {index} outside table of {size}"
  | noted text => text

end Damage

namespace ConfigFault

def message : ConfigFault → String
  | negativeLifetime secs =>
    let value := secs.toInt
    s!"ttl_secs must not be negative, got {value}"
  | noted text => text

end ConfigFault

namespace Misuse

def message : Misuse → String
  | foreignEntry entryIndex queryIndex =>
    let held := entryIndex.toInt
    let asked := queryIndex.toInt
    s!"cached entry belongs to index {held}, query runs against index {asked}"
  | noted text => text

end Misuse

namespace CacheError

/-- The full text of an error: what kind it is, then its cause. -/
def message : CacheError → String
  | io detail => "I/O error: " ++ detail
  | corrupt damage => "Corrupt cache entry: " ++ damage.message
  | invalidConfig fault => "Invalid configuration: " ++ fault.message
  | invalidOperation misuse => "Invalid operation: " ++ misuse.message
  | ranker reason => "Ranker error: " ++ reason
  | json => "JSON error: not the expected document"
  | other text => "Error: " ++ text
  | wrapped text => "Anyhow error: " ++ text

/-- Whether an error reports damaged data of the cache itself. -/
def isCorrupt : CacheError → Bool
  | corrupt _ => true
  | _ => false

end CacheError

/-! ## Computations that may fail -/

/-- Two computations in a row succeed where the first does and the second does on its result. -/
theorem bind_eq_ok {ε α β : Type} {x : Except ε α} {f : α → Except ε β} {b : β} :
    (x >>= f) = .ok b ↔ ∃ a, x = .ok a ∧ f a = .ok b := by
  constructor
  · intro h
    cases x with
    | error e => cases h
    | ok a => exact ⟨a, rfl, h⟩
  · rintro ⟨a, rfl, h⟩
    exact h

/-- They fail where the first does, or where it succeeds and the second fails on its result. -/
theorem bind_eq_error {ε α β : Type} {x : Except ε α} {f : α → Except ε β} {e : ε} :
    (x >>= f) = .error e ↔ x = .error e ∨ ∃ a, x = .ok a ∧ f a = .error e := by
  cases x with
  | error e' =>
    constructor
    · intro h
      cases h
      exact .inl rfl
    · rintro (h | ⟨a, h, -⟩)
      · cases h
        rfl
      · cases h
  | ok a =>
    constructor
    · intro h
      exact .inr ⟨a, rfl, h⟩
    · rintro (h | ⟨a', h, h'⟩)
      · cases h
      · cases h
        exact h'

end ResultCache
