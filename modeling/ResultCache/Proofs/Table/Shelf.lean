/-
A cache as a plain list: the configuration and the entries held, from the most to the least
recently used. There are no slots, links, maps or byte counts; what an operation does is said on
the list alone, and a lifetime is any number of seconds. `stalls` singles out the lookups that a
cache cannot carry out because the lifetime in force is none it can express.
-/
import ResultCache.Proofs.Table.History
import Mathlib.Algebra.GroupWithZero.Nat

namespace ResultCache

/-! ## Sizes -/

/-- The bytes charged for entries. -/
def totalSize (es : List Entry) : Nat := (es.map Entry.sizeBytes).sum

@[simp] theorem totalSize_nil : totalSize [] = 0 := rfl

@[simp] theorem totalSize_cons (e : Entry) (es : List Entry) :
    totalSize (e :: es) = e.sizeBytes + totalSize es := rfl

@[simp] theorem totalSize_append (es es' : List Entry) :
    totalSize (es ++ es') = totalSize es + totalSize es' := by
  simp only [totalSize, List.map_append, List.sum_append_nat]

theorem totalSize_filter_le (p : Entry → Bool) (es : List Entry) :
    totalSize (es.filter p) ≤ totalSize es := by
  induction es with
  | nil => exact Nat.le_refl _
  | cons e es ih =>
    rw [List.filter_cons]
    split <;> simp only [totalSize_cons] <;> omega

/-- Only no entries at all are charged nothing. -/
theorem eq_nil_of_totalSize_eq_zero {es : List Entry} (h : totalSize es = 0) : es = [] := by
  cases es with
  | nil => rfl
  | cons e es => have := e.sizeBytes_pos; rw [totalSize_cons] at h; omega

/-- The longest beginning of a list whose entries are charged no more than `budget`. -/
def fitting (budget : Nat) : List Entry → List Entry
  | [] => []
  | e :: es => if e.sizeBytes ≤ budget then e :: fitting (budget - e.sizeBytes) es else []

theorem fitting_start (es : List Entry) : ∀ budget, fitting budget es <+: es := by
  induction es with
  | nil => exact fun _ => List.prefix_refl _
  | cons e es ih =>
    intro budget
    unfold fitting
    split
    · exact List.cons_prefix_cons.2 ⟨rfl, ih _⟩
    · exact List.nil_prefix

theorem totalSize_fitting_le (es : List Entry) : ∀ budget, totalSize (fitting budget es) ≤ budget := by
  induction es with
  | nil => exact fun _ => Nat.zero_le _
  | cons e es ih =>
    intro budget
    unfold fitting
    split
    · have := ih (budget - e.sizeBytes)
      rw [totalSize_cons]; omega
    · exact Nat.zero_le _

/-- Every beginning that fits is a beginning of the longest one. -/
theorem prefix_fitting {es : List Entry} : ∀ {budget : Nat} {p : List Entry}, p <+: es →
    totalSize p ≤ budget → p <+: fitting budget es := by
  induction es with
  | nil =>
    intro budget p hp _
    rw [List.prefix_nil.1 hp]; exact List.nil_prefix
  | cons e es ih =>
    intro budget p hp hs
    cases p with
    | nil => exact List.nil_prefix
    | cons e' p =>
      obtain ⟨rfl, hrest⟩ := List.cons_prefix_cons.1 hp
      rw [totalSize_cons] at hs
      unfold fitting
      rw [if_pos (by omega)]
      exact List.cons_prefix_cons.2 ⟨rfl, ih hrest (by omega)⟩

theorem fitting_eq_self {budget : Nat} {es : List Entry} (h : totalSize es ≤ budget) :
    fitting budget es = es :=
  (fitting_start es budget).eq_of_length_le (prefix_fitting (List.prefix_refl es) h).length_le

/-- An entry at the end that does not fit in is left off first. -/
theorem fitting_concat {budget : Nat} {es : List Entry} {e : Entry}
    (h : budget < totalSize (es ++ [e])) : fitting budget (es ++ [e]) = fitting budget es := by
  have hle := totalSize_fitting_le (es ++ [e]) budget
  have hp : fitting budget (es ++ [e]) <+: es := by
    rcases List.prefix_concat_iff.1 (fitting_start (es ++ [e]) budget) with heq | hp
    · rw [heq] at hle; omega
    · exact hp
  have hq : fitting budget es <+: fitting budget (es ++ [e]) :=
    prefix_fitting ((fitting_start es budget).trans (List.prefix_append es [e]))
      (totalSize_fitting_le es budget)
  exact (prefix_fitting hp hle).eq_of_length_le hq.length_le

/-! ## The list -/

/-- The entries held, from the most to the least recently used, and the configuration in force. -/
structure Shelf where
  config : Config
  entries : List Entry := []

namespace Shelf

/-- A shelf with nothing on it. -/
def create (config : Config) : Shelf := { config }

/-- The entry of a key. -/
def held? (key : UInt64) (m : Shelf) : Option Entry := m.entries.find? fun e => e.key == key

/-- The entries of all other keys, in order. -/
def others (key : UInt64) (m : Shelf) : List Entry := m.entries.filter fun e => e.key != key

/-- Whether an entry is older than a number of seconds, exactly to the nanosecond. -/
def outlived (now : Instant) (secs : Int64) (e : Entry) : Bool :=
  decide (secs.toInt * 1000000000 < now - e.builtAt)

/-- Looks an entry up. Age counts before index and filters: an entry that is too old goes, one that
does not match stays where it is, and one that is given out comes to the front. -/
def find (now : Instant) (index : Int64) (key : UInt64) (filterHashes : List UInt64) (m : Shelf) :
    Option Entry × Shelf :=
  match if m.config.isEnabled then m.held? key else none with
  | none => (none, m)
  | some e =>
    if outlived now m.config.ttlSecs e then (none, { m with entries := m.others key })
    else if e.index = index ∧ e.filterHashes = filterHashes then
      (some e, { m with entries := e :: m.others key })
    else (none, m)

/-- Puts an entry first, followed by as many of the others as still fit. -/
def add (e : Entry) (m : Shelf) : Bool × Shelf :=
  if m.config.isEnabled ∧ e.sizeBytes ≤ m.config.budget then
    (true, { m with entries := e :: fitting (m.config.budget - e.sizeBytes) (m.others e.key) })
  else (false, m)

/-- Takes the entries of an index off and tells how many there were. -/
def invalidate (index : Int64) (m : Shelf) : Nat × Shelf :=
  (m.entries.countP (·.index = index), { m with entries := m.entries.filter (·.index ≠ index) })

/-- Replaces the configuration and keeps as many entries as fit into it. -/
def configure (config : Config) (m : Shelf) : Shelf :=
  { config, entries := if config.isEnabled then fitting config.budget m.entries else [] }

def clear (m : Shelf) : Shelf := { m with entries := [] }

def serve : Operation → Shelf → Answer × Shelf
  | .add e, m => (.added (m.add e).1, (m.add e).2)
  | .find now index key filterHashes, m =>
    (.found (.ok (m.find now index key filterHashes).1), (m.find now index key filterHashes).2)
  | .invalidate index, m => (.dropped (m.invalidate index).1, (m.invalidate index).2)
  | .configure config, m => (.done, m.configure config)
  | .clear, m => (.done, m.clear)

/-- A shelf after a history, and the answers given. -/
def run (ops : List Operation) (m : Shelf) : List Answer × Shelf := serveAll serve ops m

/-! ## Lookups that cannot be carried out -/

/-- Whether a number of seconds is longer than any span of time that can be expressed. -/
def endless (secs : Int64) : Bool := decide (secs.toInt < -longestSpan ∨ longestSpan < secs.toInt)

/-- Whether an operation comes upon an entry whose age it cannot judge. -/
def stalls : Operation → Shelf → Bool
  | .find _ _ key _, m => m.config.isEnabled && (m.held? key).isSome && endless m.config.ttlSecs
  | _, _ => false

/-- No operation of a history stalls. -/
def Flows : List Operation → Shelf → Prop
  | [], _ => True
  | op :: ops, m => stalls op m = false ∧ Flows ops (m.serve op).2

/-- As `serve`, but a lookup that stalls ends in a fault and changes nothing. -/
def serveOrStall (op : Operation) (m : Shelf) : Answer × Shelf :=
  if stalls op m then (.found (.error (.lifetimeOutOfRange m.config.ttlSecs)), m) else m.serve op

/-- A shelf after a history in which lookups may stall, and the answers given. -/
def runOrStall (ops : List Operation) (m : Shelf) : List Answer × Shelf := serveAll serveOrStall ops m

end Shelf

end ResultCache
