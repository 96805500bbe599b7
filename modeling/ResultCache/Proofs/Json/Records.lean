/-
Configurations, statuses, schemas, options, filters and queries, written and read back. Each is read
from the tree of what is written of it, part by part, whatever format the text is in as long as the
format is faithful. Integers, strings, names of variants and sorted field weights are read back in
any case; a float bound is, if its own text is (`TextFormat.ReadsBack`); and a bound that is not
finite has no text, so that reading fails (`records_read_back`).
-/
import ResultCache.Proofs.Json.Format
import ResultCache.Proofs.Json.Standard
import ResultCache.Query.Json
import ResultCache.Table.Json

namespace ResultCache

open Json

variable {f : TextFormat} {found : Number → Tree}

/-! ## Configurations and statuses -/

theorem Config.ofTree?_tree (hf : f.Faithful found) (c : Config) :
    Config.ofTree? (c.json.tree found) = some c := by
  simp [Config.ofTree?, Config.json, hf.int64?_tree, hf.uint32?_tree]

theorem Config.withinDepth_json (n : Nat) (c : Config) : c.json.WithinDepth (n + 1) := by
  simp [Config.json]

theorem Status.ofTree?_tree (hf : f.Faithful found) (s : Status) :
    Status.ofTree? (s.json.tree found) = some s := by
  simp [Status.ofTree?, Status.json, hf.int64?_tree, hf.uint32?_tree, hf.uint64?_tree]

theorem Status.withinDepth_json (n : Nat) (s : Status) : s.json.WithinDepth (n + 1) := by
  simp [Status.json]

/-! ## Schemas -/

@[simp] theorem ColumnKind.ofTree?_tree (found : Number → Tree) (k : ColumnKind) :
    ColumnKind.ofTree? ((Json.string k.name).tree found) = some k := by
  cases k <;> simp [ColumnKind.ofTree?, tree, Tree.variant?, Tree.isBare, ofName?, ColumnKind.name]

theorem Column.ofTree?_tree (found : Number → Tree) (c : Column) :
    Column.ofTree? (c.json.tree found) = some c := by
  obtain ⟨name, kind, expr⟩ := c
  have hnone : exprOfTree? (Json.null.tree found) = some none := rfl
  have hsome : ∀ text, exprOfTree? ((Json.string text).tree found) = some (some text) := fun _ => rfl
  cases expr <;> simp [Column.ofTree?, Column.json, hnone, hsome]

theorem Column.withinDepth_json (n : Nat) (c : Column) : c.json.WithinDepth (n + 1) := by
  obtain ⟨name, kind, expr⟩ := c
  cases expr <;> simp [Column.json]

theorem Schema.ofTree?_tree (found : Number → Tree) (s : Schema) :
    Schema.ofTree? (s.json.tree found) = some s := by
  have hcolumns : ((Json.array (s.columns.map Column.json)).tree found).list? Column.ofTree? =
      some s.columns :=
    list?_tree_of found fun c _ => c.ofTree?_tree found
  simp [Schema.ofTree?, Schema.json, hcolumns]

theorem Schema.withinDepth_json (n : Nat) (s : Schema) : s.json.WithinDepth (n + 3) := by
  simp [Schema.json, Column.withinDepth_json]

/-! ## Options -/

@[simp] theorem Ranking.ofTree?_tree (found : Number → Tree) (r : Ranking) :
    Ranking.ofTree? (r.json.tree found) = some r := by
  cases r with
  | expr text => rfl
  | _ => simp [Ranking.ofTree?, Ranking.json, tree, Tree.variant?, Tree.isBare]

theorem FieldWeights.ofTree?_tree (hf : f.Faithful found) (ws : FieldWeights) :
    FieldWeights.ofTree? (ws.json.tree found) = some ws := by
  obtain ⟨entries, sorted⟩ := ws
  rw [FieldWeights.ofTree?, FieldWeights.json, fields?_tree]
  simp only [List.map_map, List.mapM_map, Option.bind_eq_bind, Option.bind_some]
  rw [mapM_eq_some ?_, Option.bind_some, FieldWeights.ofList]
  · simp only [sorted.sort_eq]
  · rintro ⟨field, weight⟩ -
    exact congrArg (Option.map (field, ·)) (hf.uint32?_tree weight)

theorem QueryOptions.ofTree?_tree (hf : f.Faithful found) (o : QueryOptions) :
    QueryOptions.ofTree? (o.json.tree found) = some o := by
  simp [QueryOptions.ofTree?, QueryOptions.json, FieldWeights.ofTree?_tree hf, hf.uint64?_tree]

theorem QueryOptions.withinDepth_json (n : Nat) (o : QueryOptions) :
    o.json.WithinDepth (n + 2) := by
  have hranking : o.ranking.json.WithinDepth (n + 1) := by
    cases o.ranking <;> simp [Ranking.json]
  have hweights : o.fieldWeights.json.WithinDepth (n + 1) := by
    rw [FieldWeights.json, withinDepth_object, List.forall_mem_map]
    exact fun p _ => withinDepth_ofUInt32 n p.2
  simp [QueryOptions.json, hranking, hweights]

/-! ## Filters -/

/-- The float bounds of a condition. -/
def Condition.bounds : Condition → List Single
  | .floatRange min max => [min, max]
  | _ => []

def Filter.bounds (f : Filter) : List Single := f.condition.bounds

def Query.bounds (q : Query) : List Single := q.filters.flatMap Filter.bounds

namespace Filter

theorem ofTree?_tree (hf : f.Faithful found) (x : Filter)
    (h : ∀ b ∈ x.bounds, ((ofSingle b).tree found).single? = some b) :
    Filter.ofTree? (x.json.tree found) = some x := by
  obtain ⟨attr, condition, exclude⟩ := x
  cases condition with
  | values allowed =>
    have hallowed : ((Json.array (allowed.map ofInt64)).tree found).list? Tree.int64? =
        some allowed :=
      list?_tree_of found fun n _ => hf.int64?_tree n
    simp [Filter.ofTree?, ofRecord?, Filter.json, Condition.json, hallowed]
  | range min max =>
    simp [Filter.ofTree?, ofRecord?, Filter.json, Condition.json, hf.int64?_tree]
  | floatRange min max =>
    have hmin := h min (by simp [bounds, Condition.bounds])
    have hmax := h max (by simp [bounds, Condition.bounds])
    simp [Filter.ofTree?, ofRecord?, Filter.json, Condition.json, hmin, hmax]
  | strings allowed =>
    simp [Filter.ofTree?, ofRecord?, Filter.json, Condition.json]

theorem ofTree?_tree_of_not_isFinite (hf : f.Faithful found) {x : Filter} {b : Single}
    (hb : b ∈ x.bounds) (h : b.isFinite = false) : Filter.ofTree? (x.json.tree found) = none := by
  obtain ⟨attr, condition, exclude⟩ := x
  have hnone := hf.single?_of_not_isFinite h
  cases condition with
  | floatRange min max =>
    simp only [bounds, Condition.bounds, List.mem_cons, List.not_mem_nil, or_false] at hb
    rcases hb with rfl | rfl <;>
      simp [Filter.ofTree?, ofRecord?, Filter.json, Condition.json, hnone]
  | _ => cases hb

theorem withinDepth_json (n : Nat) (x : Filter) : x.json.WithinDepth (n + 3) := by
  obtain ⟨attr, condition, exclude⟩ := x
  cases condition <;> simp [Filter.json, Condition.json]

end Filter

/-! ## Queries -/

namespace Query

theorem ofTree?_tree (hf : f.Faithful found) (q : Query)
    (h : ∀ b ∈ q.bounds, ((ofSingle b).tree found).single? = some b) :
    Query.ofTree? (q.json.tree found) = some q := by
  have hfilters : ((Json.array (q.filters.map Filter.json)).tree found).list? Filter.ofTree? =
      some q.filters :=
    list?_tree_of found fun x hx =>
      Filter.ofTree?_tree hf x fun b hb => h b (List.mem_flatMap.2 ⟨x, hx, hb⟩)
  simp [Query.ofTree?, Query.json, QueryOptions.ofTree?_tree hf, hfilters]

theorem ofTree?_tree_of_not_isFinite (hf : f.Faithful found) {q : Query} {b : Single}
    (hb : b ∈ q.bounds) (h : b.isFinite = false) : Query.ofTree? (q.json.tree found) = none := by
  obtain ⟨x, hx, hbx⟩ := List.mem_flatMap.1 hb
  have hfilters : ((Json.array (q.filters.map Filter.json)).tree found).list? Filter.ofTree? =
      none := by
    rw [list?_tree, mapM_eq_none hx (Filter.ofTree?_tree_of_not_isFinite hf hbx h)]
  simp [Query.ofTree?, Query.json, hfilters]

theorem withinDepth_json (n : Nat) (q : Query) : q.json.WithinDepth (n + 5) := by
  simp [Query.json, QueryOptions.withinDepth_json, Filter.withinDepth_json]

end Query

/-! ## Reading back -/

/-- If the number is finite, it is read back from its own text. A reader may take the text for a
double first, so that it is rounded twice. -/
def Json.TextFormat.ReadsBack (f : TextFormat) (b : Single) : Prop :=
  b.isFinite = true → f.reread? (ofSingle b) Tree.single? = some b

/-- Everything is read back from its compact text, as long as its float bounds are finite and are
read back from theirs. With a bound that is not finite nothing is read. -/
theorem records_read_back (f : TextFormat) (found : Number → Tree) (hf : f.Faithful found) :
    (∀ c : Config, f.reread? c.json Config.ofTree? = some c) ∧
    (∀ s : Status, f.reread? s.json Status.ofTree? = some s) ∧
    (∀ s : Schema, f.reread? s.json Schema.ofTree? = some s) ∧
    (∀ o : QueryOptions, f.reread? o.json QueryOptions.ofTree? = some o) ∧
    (∀ x : Filter, (∀ b ∈ x.bounds, b.isFinite = true) → (∀ b ∈ x.bounds, f.ReadsBack b) →
      f.reread? x.json Filter.ofTree? = some x) ∧
    (∀ x : Filter, (∃ b ∈ x.bounds, b.isFinite = false) → f.reread? x.json Filter.ofTree? = none) ∧
    (∀ q : Query, (∀ b ∈ q.bounds, b.isFinite = true) → (∀ b ∈ q.bounds, f.ReadsBack b) →
      f.reread? q.json Query.ofTree? = some q) ∧
    (∀ q : Query, (∃ b ∈ q.bounds, b.isFinite = false) → f.reread? q.json Query.ofTree? = none) := by
  have hsingle : ∀ b, b.isFinite = true → f.ReadsBack b →
      ((ofSingle b).tree found).single? = some b := fun b hfinite hback =>
    (hf.reread?_eq (withinDepth_ofSingle 127 b) Tree.single?).symm.trans (hback hfinite)
  refine ⟨?_, ?_, ?_, ?_, ?_, ?_, ?_, ?_⟩
  · intro c
    rw [hf.reread?_eq (c.withinDepth_json 126), Config.ofTree?_tree hf]
  · intro s
    rw [hf.reread?_eq (s.withinDepth_json 126), Status.ofTree?_tree hf]
  · intro s
    rw [hf.reread?_eq (s.withinDepth_json 124), s.ofTree?_tree]
  · intro o
    rw [hf.reread?_eq (o.withinDepth_json 125), QueryOptions.ofTree?_tree hf]
  · intro x hfinite hback
    rw [hf.reread?_eq (x.withinDepth_json 124)]
    exact Filter.ofTree?_tree hf x fun b hb => hsingle b (hfinite b hb) (hback b hb)
  · rintro x ⟨b, hb, hinfinite⟩
    rw [hf.reread?_eq (x.withinDepth_json 124)]
    exact Filter.ofTree?_tree_of_not_isFinite hf hb hinfinite
  · intro q hfinite hback
    rw [hf.reread?_eq (q.withinDepth_json 122)]
    exact Query.ofTree?_tree hf q fun b hb => hsingle b (hfinite b hb) (hback b hb)
  · rintro q ⟨b, hb, hinfinite⟩
    rw [hf.reread?_eq (q.withinDepth_json 122)]
    exact Query.ofTree?_tree_of_not_isFinite hf hb hinfinite

/-- For instance between -0.1 and a half, in the standard format. -/
theorem range_reads_back :
    TextFormat.standard.Faithful Number.found ∧
    (∀ b ∈ ([⟨0xbdcccccd⟩, ⟨0x3f000000⟩] : List Single),
      b.isFinite = true ∧ TextFormat.standard.ReadsBack b) ∧
    TextFormat.standard.reread?
        (Query.json ⟨"a\n\u00e9", {}, [⟨"price", .floatRange ⟨0xbdcccccd⟩ ⟨0x3f000000⟩, true⟩]⟩)
        Query.ofTree? =
      some ⟨"a\n\u00e9", {}, [⟨"price", .floatRange ⟨0xbdcccccd⟩ ⟨0x3f000000⟩, true⟩]⟩ := by
  have hbounds : ∀ b ∈ ([⟨0xbdcccccd⟩, ⟨0x3f000000⟩] : List Single),
      b.isFinite = true ∧ ((ofSingle b).tree Number.found).single? = some b := by
    decide +kernel
  have hback : ∀ b ∈ ([⟨0xbdcccccd⟩, ⟨0x3f000000⟩] : List Single),
      TextFormat.standard.ReadsBack b := fun b hb _ =>
    (TextFormat.standard_faithful.reread?_eq (withinDepth_ofSingle 127 b) _).trans (hbounds b hb).2
  exact ⟨TextFormat.standard_faithful, fun b hb => ⟨(hbounds b hb).1, hback b hb⟩,
    (records_read_back _ _ TextFormat.standard_faithful).2.2.2.2.2.2.1 _
      (fun b hb => (hbounds b hb).1) hback⟩

end ResultCache
