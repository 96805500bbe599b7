/-
Entries in numbered slots, linked from most to least recently used. A map leads from the key of an
entry to its slot; slots that fall empty are kept on a list and filled again before new ones are
made. Every operation touches a fixed number of slots, but for those that drop many entries.
-/
import ResultCache.Entry
import Std.Data.HashMap

namespace ResultCache

/-- A slot: the entry it holds, if any, and its neighbours in order of use. -/
structure Slot where
  entry : Option Entry := none
  /-- The slot used more recently. -/
  prev : Option Nat := none
  /-- The slot used less recently. -/
  next : Option Nat := none
  deriving Repr, Inhabited

/-- Slots linked by recency. -/
structure Slab where
  /-- The slot of every key held. -/
  keys : Std.HashMap UInt64 Nat := {}
  slots : Array Slot := #[]
  /-- The empty slots; the first one is filled next. -/
  free : List Nat := []
  /-- The most recently used slot. -/
  head : Option Nat := none
  /-- The least recently used slot. -/
  tail : Option Nat := none
  /-- The bytes charged for all entries held. -/
  usedBytes : Nat := 0
  deriving Inhabited

namespace Slab

/-- A slab without slots. -/
def empty : Slab := {}

/-- The entry in a slot. -/
def entryAt? (t : Slab) (slot : Nat) : Option Entry := t.slots[slot]?.bind Slot.entry

/-- The slot and the entry of a key. -/
def find? (t : Slab) (key : UInt64) : Option (Nat × Entry) := do
  let slot ← t.keys[key]?
  let entry ← t.entryAt? slot
  some (slot, entry)

/-! ## Links -/

def setPrev (slot : Nat) (prev : Option Nat) (t : Slab) : Slab :=
  { t with slots := t.slots.modify slot fun s => { s with prev } }

def setNext (slot : Nat) (next : Option Nat) (t : Slab) : Slab :=
  { t with slots := t.slots.modify slot fun s => { s with next } }

/-- Makes `next` follow `prev`, where no slot before the first means the head. -/
def linkNext (prev next : Option Nat) (t : Slab) : Slab :=
  match prev with
  | none => { t with head := next }
  | some p => t.setNext p next

/-- Makes `prev` precede `next`, where no slot behind the last means the tail. -/
def linkPrev (next prev : Option Nat) (t : Slab) : Slab :=
  match next with
  | none => { t with tail := prev }
  | some n => t.setPrev n prev

/-- Takes a slot out of the order, joining its neighbours. -/
def detach (slot : Nat) (t : Slab) : Slab :=
  let s := t.slots[slot]?.getD {}
  -- the neighbours are joined before the slot's own links are cut
  (((t.linkNext s.prev s.next).linkPrev s.next s.prev).setPrev slot none).setNext slot none

/-- Puts a slot that is in no place first. -/
def pushFront (slot : Nat) (t : Slab) : Slab :=
  let t := (t.setPrev slot none).setNext slot t.head
  let t := match t.head with
    | some h => t.setPrev h (some slot)
    | none => t
  -- the first slot of an empty order is its last one as well
  { t with head := some slot, tail := t.tail.or (some slot) }

/-- Moves a slot to the front. -/
def promote (slot : Nat) (t : Slab) : Slab :=
  if t.head = some slot then t else (t.detach slot).pushFront slot

/-! ## Entries -/

/-- Puts an entry into an empty slot, if there is one, and else into a new one. -/
def occupy (e : Entry) (t : Slab) : Nat × Slab :=
  match t.free with
  | slot :: free =>
    (slot, { t with free, slots := t.slots.modify slot fun s => { s with entry := some e } })
  | [] => (t.slots.size, { t with slots := t.slots.push { entry := some e } })

/-- Adds an entry, whose key is not held, as the most recently used one. -/
def insert (e : Entry) (t : Slab) : Slab :=
  let (slot, t) := { t with usedBytes := t.usedBytes + e.sizeBytes }.occupy e
  { t with keys := t.keys.insert e.key slot }.pushFront slot

/-- Empties a slot, if it holds an entry. -/
def remove? (slot : Nat) (t : Slab) : Option (Entry × Slab) :=
  match t.entryAt? slot with
  | none => none
  | some e =>
    let t := { t with slots := t.slots.modify slot fun s => { s with entry := none } }.detach slot
    some (e,
      { t with
        keys := t.keys.erase e.key
        usedBytes := t.usedBytes - e.sizeBytes
        free := slot :: t.free })

/-- Drops the least recently used entry. -/
def evictTail? (t : Slab) : Option (Entry × Slab) := t.tail.bind fun slot => t.remove? slot

@[simp] theorem linkNext_usedBytes (prev next : Option Nat) (t : Slab) :
    (t.linkNext prev next).usedBytes = t.usedBytes := by
  unfold linkNext; split <;> rfl

@[simp] theorem linkPrev_usedBytes (next prev : Option Nat) (t : Slab) :
    (t.linkPrev next prev).usedBytes = t.usedBytes := by
  unfold linkPrev; split <;> rfl

@[simp] theorem detach_usedBytes (slot : Nat) (t : Slab) :
    (t.detach slot).usedBytes = t.usedBytes := by
  simp [detach, setPrev, setNext]

theorem remove?_usedBytes {slot : Nat} {t t' : Slab} {e : Entry}
    (h : t.remove? slot = some (e, t')) : t'.usedBytes = t.usedBytes - e.sizeBytes := by
  unfold remove? at h
  cases he : t.entryAt? slot with
  | none => rw [he] at h; cases h
  | some e' =>
    rw [he] at h
    simp only [Option.some.injEq, Prod.mk.injEq] at h
    obtain ⟨rfl, rfl⟩ := h
    rw [detach_usedBytes]

theorem evictTail?_usedBytes {t t' : Slab} {e : Entry} (h : t.evictTail? = some (e, t')) :
    t'.usedBytes = t.usedBytes - e.sizeBytes := by
  unfold evictTail? at h
  obtain ⟨slot, _, hr⟩ := Option.bind_eq_some_iff.1 h
  exact remove?_usedBytes hr

/-- Drops least recently used entries until no more than `budget` bytes are charged, and counts
them on from `dropped`. -/
def trimFrom (budget dropped : Nat) (t : Slab) : Nat × Slab :=
  if budget < t.usedBytes then
    match _h : t.evictTail? with
    | some (e, t') =>
      have := e.sizeBytes_pos
      trimFrom budget (dropped + 1) t'
    | none => (dropped, t)
  else (dropped, t)
termination_by t.usedBytes
decreasing_by
  have := evictTail?_usedBytes _h
  omega

/-- Drops least recently used entries until no more than `budget` bytes are charged. -/
def trim (budget : Nat) (t : Slab) : Nat × Slab := t.trimFrom budget 0

/-- Empties slots one after another and counts the entries dropped. -/
def removeAll (slots : List Nat) (t : Slab) : Nat × Slab :=
  slots.foldl
    (fun (dropped, t) slot =>
      match t.remove? slot with
      | some (_, t') => (dropped + 1, t')
      | none => (dropped, t))
    (0, t)

/-- The slots that hold an entry of which `p` is true. -/
def slotsWhere (p : Entry → Bool) (t : Slab) : List Nat :=
  (List.range t.slots.size).filter fun slot => (t.entryAt? slot).any p

/-- Drops every entry of an index. -/
def removeIndex (index : Int64) (t : Slab) : Nat × Slab :=
  t.removeAll (t.slotsWhere fun e => e.index = index)

/-- Drops everything, the slots included. -/
def drain (t : Slab) : Nat × Slab := ((t.slotsWhere fun _ => true).length, empty)

/-! ## Order -/

/-- The slots met from `slot` on by going to the next one, `steps` at most. -/
def follow (t : Slab) : Nat → Option Nat → List Nat
  | 0, _ => []
  | _, none => []
  | steps + 1, some slot => slot :: t.follow steps ((t.slots[slot]?).bind Slot.next)

/-- The linked slots from the most to the least recently used. No slot is linked twice, so there
are no more than slots. -/
def linked (t : Slab) : List Nat := t.follow t.slots.size t.head

/-- The entries held, from the most to the least recently used. -/
def entries (t : Slab) : List Entry := t.linked.filterMap t.entryAt?

/-- How many entries are held. -/
def length (t : Slab) : Nat := t.keys.size

end Slab

end ResultCache
