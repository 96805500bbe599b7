/-
What a text format owes to the records written in it. In a faithful one (`TextFormat.Faithful`) a
value is found again from its text, part by part: null, booleans, strings and keys as they were,
integers as the same integers, and null in place of a number that is not finite. How the other
numbers are found is left open. Readers of values, lists and records are then related to what was
written, once for all types that are put together from these.
-/
import ResultCache.Json.Format
import ResultCache.Proofs.Query.FieldWeights

namespace ResultCache.Json

/-! ## Trees of values -/

section

variable (found : Number → Tree)

mutual

/-- The tree of a value, where a number is found as `found` says. -/
def tree : Json → Tree
  | .null => .null
  | .bool b => .bool b
  | .number n => found n
  | .string s => .string (some s)
  | .array items => .array (itemTrees items)
  | .object fields => .object (fieldTrees fields)

def itemTrees : List Json → List Tree
  | [] => []
  | v :: rest => tree v :: itemTrees rest

def fieldTrees : List (String × Json) → List (Option String × Tree)
  | [] => []
  | (key, v) :: rest => (some key, tree v) :: fieldTrees rest

end

theorem itemTrees_eq_map (items : List Json) : itemTrees found items = items.map (tree found) := by
  induction items with
  | nil => rw [itemTrees, List.map_nil]
  | cons v rest ih => rw [itemTrees, List.map_cons, ih]

theorem fieldTrees_eq_map (fields : List (String × Json)) :
    fieldTrees found fields = fields.map fun p => (some p.1, tree found p.2) := by
  induction fields with
  | nil => rw [fieldTrees, List.map_nil]
  | cons field rest ih => rw [fieldTrees, List.map_cons, ih]

end

/-! ## Depth -/

/-- At most `n` containers stand inside each other. -/
def WithinDepth : Nat → Json → Prop
  | n + 1, .array items => ∀ v ∈ items, WithinDepth n v
  | n + 1, .object fields => ∀ p ∈ fields, WithinDepth n p.2
  | 0, .array _ => False
  | 0, .object _ => False
  | _, _ => True

section

variable (n : Nat)

@[simp] theorem withinDepth_null : WithinDepth n .null := by cases n <;> trivial

@[simp] theorem withinDepth_bool (b : Bool) : WithinDepth n (.bool b) := by cases n <;> trivial

@[simp] theorem withinDepth_number (x : Number) : WithinDepth n (.number x) := by
  cases n <;> trivial

@[simp] theorem withinDepth_string (s : String) : WithinDepth n (.string s) := by
  cases n <;> trivial

@[simp] theorem withinDepth_array (items : List Json) :
    WithinDepth (n + 1) (.array items) ↔ ∀ v ∈ items, WithinDepth n v := Iff.rfl

@[simp] theorem withinDepth_object (fields : List (String × Json)) :
    WithinDepth (n + 1) (.object fields) ↔ ∀ p ∈ fields, WithinDepth n p.2 := Iff.rfl

@[simp] theorem withinDepth_ofUInt64 (x : UInt64) : WithinDepth n (ofUInt64 x) :=
  withinDepth_number n _

@[simp] theorem withinDepth_ofUInt32 (x : UInt32) : WithinDepth n (ofUInt32 x) :=
  withinDepth_number n _

@[simp] theorem withinDepth_ofInt64 (x : Int64) : WithinDepth n (ofInt64 x) := by
  unfold ofInt64
  split
  · exact withinDepth_ofUInt64 n _
  · exact withinDepth_number n _

@[simp] theorem withinDepth_ofSingle (x : Single) : WithinDepth n (ofSingle x) :=
  withinDepth_number n _

end

/-! ## Faithful formats -/

/-- What is written is found again, where `found` tells what is found of a number. -/
structure TextFormat.Faithful (f : TextFormat) (found : Number → Tree) : Prop where
  /-- A reader need not follow more than 127 containers that stand inside each other. -/
  read_compact : ∀ v : Json, v.WithinDepth 127 → f.read (f.compact v) = some (v.tree found)
  natural : ∀ n, found (.natural n) = .number (some (.natural n))
  negative : ∀ n < 0, found (.negative n) = .number (some (.negative n))
  /-- There is no number for infinities and NaN. -/
  not_finite : ∀ b : Single, b.isFinite = false → found (.single b) = .null

namespace TextFormat.Faithful

variable {f : TextFormat} {found : Number → Tree}

theorem reread?_eq {α : Type} (hf : f.Faithful found) {v : Json} (hv : v.WithinDepth 127)
    (read : Tree → Option α) : f.reread? v read = read (v.tree found) := by
  rw [reread?, hf.read_compact v hv, Option.bind_some]

/-! ## Values without parts -/

variable (hf : f.Faithful found)

include hf

theorem int?_ofUInt64 (n : UInt64) : ((ofUInt64 n).tree found).int? = some (n.toNat : Int) := by
  rw [ofUInt64, tree, hf.natural]
  rfl

theorem int?_ofInt64 (n : Int64) : ((ofInt64 n).tree found).int? = some n.toInt := by
  unfold ofInt64
  split
  · rename_i h
    have hn : 0 ≤ n.toInt := Int64.le_iff_toInt_le.1 h
    rw [hf.int?_ofUInt64, Int64.toNat_toUInt64_of_le h, Int64.toNatClampNeg, Int.toNat_of_nonneg hn]
  · rename_i h
    rw [tree, hf.negative n (Int64.not_le.1 h)]
    rfl

theorem uint64?_tree (n : UInt64) : ((ofUInt64 n).tree found).uint64? = some n := by
  have hn : n.toNat < UInt64.size := n.toNat_lt
  rw [Tree.uint64?, hf.int?_ofUInt64]
  dsimp only
  rw [if_pos (by omega), Int.toNat_natCast]
  simp

theorem uint32?_tree (n : UInt32) : ((ofUInt32 n).tree found).uint32? = some n := by
  have hn : n.toNat < UInt32.size := n.toNat_lt
  rw [Tree.uint32?, ofUInt32, hf.int?_ofUInt64, UInt32.toNat_toUInt64]
  dsimp only
  rw [if_pos (by omega), Int.toNat_natCast]
  simp

theorem int64?_tree (n : Int64) : ((ofInt64 n).tree found).int64? = some n := by
  have h : Int64.minValue.toInt ≤ n.toInt ∧ n.toInt ≤ Int64.maxValue.toInt :=
    ⟨n.minValue_le_toInt, n.toInt_le⟩
  rw [Tree.int64?, hf.int?_ofInt64]
  dsimp only
  rw [if_pos h, Int64.ofInt_toInt]

/-- What stands in place of a number that is not finite is no number. -/
theorem single?_of_not_isFinite {b : Single} (h : b.isFinite = false) :
    ((ofSingle b).tree found).single? = none := by
  rw [ofSingle, tree, hf.not_finite b h]
  rfl

end TextFormat.Faithful

/-! ## Lists, objects, members -/

section

variable (found : Number → Tree)

@[simp] theorem text?_tree (s : String) : ((Json.string s).tree found).text? = some s := rfl

@[simp] theorem bool?_tree (b : Bool) : ((Json.bool b).tree found).bool? = some b := rfl

/-- Items are read one by one. -/
theorem list?_tree {α β : Type} (read : Tree → Option α) (json : β → Json) (xs : List β) :
    ((Json.array (xs.map json)).tree found).list? read =
      xs.mapM fun x => read ((json x).tree found) := by
  rw [tree, itemTrees_eq_map, Tree.list?, List.map_map, List.mapM_map]
  rfl

theorem mapM_eq_some {α : Type} {read : α → Option α} {xs : List α}
    (h : ∀ x ∈ xs, read x = some x) : xs.mapM read = some xs := by
  induction xs with
  | nil => rfl
  | cons x xs ih =>
    obtain ⟨hx, hxs⟩ := List.forall_mem_cons.1 h
    rw [List.mapM_cons, hx, ih hxs]
    rfl

theorem list?_tree_of {α : Type} {read : Tree → Option α} {json : α → Json} {xs : List α}
    (h : ∀ x ∈ xs, read ((json x).tree found) = some x) :
    ((Json.array (xs.map json)).tree found).list? read = some xs := by
  rw [list?_tree, mapM_eq_some h]

@[simp] theorem texts?_tree (ss : List String) :
    ((Json.array (ss.map .string)).tree found).list? Tree.text? = some ss :=
  list?_tree_of found fun s _ => text?_tree found s

theorem mapM_eq_none {α β : Type} {read : α → Option β} {xs : List α} {x : α} (hx : x ∈ xs)
    (h : read x = none) : xs.mapM read = none := by
  induction xs with
  | nil => cases hx
  | cons y xs ih =>
    rw [List.mapM_cons]
    rcases List.mem_cons.1 hx with rfl | hx
    · rw [h]
      rfl
    · rw [ih hx]
      cases read y <;> rfl

theorem fields?_tree (fields : List (String × Json)) :
    ((Json.object fields).tree found).fields? = some (fields.map fun p => (p.1, p.2.tree found)) := by
  rw [tree, fieldTrees_eq_map, Tree.fields?]
  induction fields with
  | nil => rfl
  | cons field rest ih =>
    rw [List.map_cons, List.mapM_cons, ih]
    simp

/-- The members of a record that was written with all its fields. -/
@[simp] theorem members?_tree {names : List String} {fields : List (String × Json)}
    (hnames : fields.map Prod.fst = names) (hnodup : names.Nodup) :
    ((Json.object fields).tree found).members? names =
      some (fields.map fun p => (p.1, p.2.tree found)) := by
  have hfields := fields?_tree found fields
  have hfst : (fields.map fun p => (p.1, p.2.tree found)).map Prod.fst = names := by
    rw [List.map_map]
    exact hnames
  rw [tree] at hfields ⊢
  rw [Tree.members?, hfields]
  simp only [Option.bind_eq_bind, Option.bind_some]
  -- no field is skipped
  rw [List.filter_eq_self.2 ?_, hfst, if_pos hnodup]
  intro p hp
  rw [List.contains_iff_mem, ← hfst]
  exact List.mem_map_of_mem hp

@[simp] theorem record?_tree {names : List String} {fields : List (String × Json)}
    (hnames : fields.map Prod.fst = names) (hnodup : names.Nodup) :
    ((Json.object fields).tree found).record? names =
      some (fields.map fun p => (p.1, p.2.tree found)) :=
  members?_tree found hnames hnodup

@[simp] theorem variant?_tree (kind : String) (v : Json) :
    ((Json.object [(kind, v)]).tree found).variant? = some (kind, some (v.tree found)) := rfl

end

@[simp] theorem member?_cons {α : Type} (name n : String) (read : Tree → Option α) (t : Tree)
    (ms : List (String × Tree)) : Tree.member? name read ((n, t) :: ms) =
      if name = n then read t else Tree.member? name read ms := by
  rw [Tree.member?, Named.lookup_cons_eq]
  split <;> rfl

@[simp] theorem memberOr?_cons {α : Type} (name n : String) (read : Tree → Option α) (missing : α)
    (t : Tree) (ms : List (String × Tree)) : Tree.memberOr? name read missing ((n, t) :: ms) =
      if name = n then read t else Tree.memberOr? name read missing ms := by
  by_cases hn : name = n
  · rw [if_pos hn, Tree.memberOr?, Named.lookup_cons_eq, if_pos hn]
  · rw [if_neg hn, Tree.memberOr?, Named.lookup_cons_eq, if_neg hn, ← Tree.memberOr?]

end ResultCache.Json
