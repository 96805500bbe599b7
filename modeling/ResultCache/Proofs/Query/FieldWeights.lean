/-
Field weights as maps. Being sorted, the weights are told by what they give for every field
(`FieldWeights.ext_get?`); so the order in which the weights of different fields are set is not seen.
-/
import Mathlib.Data.List.Nodup
import ResultCache.Query.FieldWeights

namespace ResultCache

namespace Named

variable {α : Type} {ps qs : List (String × α)}

theorem lookup_cons_eq (n name : String) (value : α) (ps : List (String × α)) :
    ((name, value) :: ps).lookup n = if n = name then some value else ps.lookup n := by
  rw [List.lookup_cons]
  by_cases hn : n = name
  · rw [if_pos hn, beq_iff_eq.2 hn]
  · rw [if_neg hn, beq_eq_false_iff_ne.2 hn]

theorem lookup_insert (name : String) (value : α) (ps : List (String × α)) (n : String) :
    (insert name value ps).lookup n = if n = name then some value else ps.lookup n := by
  induction ps with
  | nil => exact lookup_cons_eq n name value []
  | cons p rest ih =>
    obtain ⟨n', v⟩ := p
    rw [insert]
    split
    · exact lookup_cons_eq n name value _
    · split
      · rename_i hsame
        rw [lookup_cons_eq, lookup_cons_eq, hsame]
        by_cases hn : n = n' <;> simp only [hn, if_true, if_false]
      · rename_i hother
        rw [lookup_cons_eq, lookup_cons_eq, ih]
        by_cases hn : n = n'
        · have hne : n ≠ name := fun h => hother (h.symm.trans hn)
          rw [if_pos hn, if_pos hn, if_neg hne]
        · rw [if_neg hn, if_neg hn]

theorem Sorted.lookup_eq_some_iff (h : Sorted ps) {name : String} {value : α} :
    ps.lookup name = some value ↔ (name, value) ∈ ps := by
  induction ps with
  | nil => simp
  | cons p rest ih =>
    obtain ⟨n, v⟩ := p
    obtain ⟨hbefore, hrest⟩ := List.pairwise_cons.1 h
    rw [lookup_cons_eq, List.mem_cons]
    by_cases hn : name = n
    · subst hn
      have hnot : (name, value) ∉ rest := fun hmem => String.lt_irrefl name (hbefore _ hmem)
      simp [hnot, eq_comm]
    · simp [hn, ih hrest]

theorem Sorted.nodup (h : Sorted ps) : ps.Nodup := by
  refine List.Pairwise.imp ?_ h
  rintro a _ hlt rfl
  exact String.lt_irrefl a.1 hlt

/-- Sorted values that agree under every name are the same. -/
theorem Sorted.eq_of_lookup (hp : Sorted ps) (hq : Sorted qs)
    (h : ∀ name, ps.lookup name = qs.lookup name) : ps = qs := by
  have hmem : ∀ p, p ∈ ps ↔ p ∈ qs := by
    rintro ⟨name, value⟩
    rw [← hp.lookup_eq_some_iff, ← hq.lookup_eq_some_iff, h]
  refine List.Perm.eq_of_pairwise ?_ hp hq ((List.perm_ext_iff_of_nodup hp.nodup hq.nodup).2 hmem)
  intro a b _ _ hlt hgt
  exact absurd hgt (String.lt_asymm hlt)

theorem insert_of_forall_lt {name : String} {value : α} (h : ∀ p ∈ ps, p.1 < name) :
    insert name value ps = ps ++ [(name, value)] := by
  induction ps with
  | nil => rfl
  | cons p rest ih =>
    obtain ⟨n, v⟩ := p
    obtain ⟨hn, hrest⟩ := List.forall_mem_cons.1 h
    have hne : name ≠ n := by
      rintro rfl
      exact String.lt_irrefl name hn
    rw [insert, if_neg (String.lt_asymm hn), if_neg hne, ih hrest, List.cons_append]

/-- Sorted values are left as they are. -/
theorem Sorted.sort_eq (h : Sorted ps) : sort ps = ps := by
  suffices ∀ before : List (String × α), Sorted (before ++ ps) →
      ps.foldl (fun sorted p => insert p.1 p.2 sorted) before = before ++ ps from this [] h
  clear h
  induction ps with
  | nil => exact fun before _ => (List.append_nil before).symm
  | cons p rest ih =>
    intro before h
    have hlast : ∀ q ∈ before, q.1 < p.1 :=
      fun q hq => (List.pairwise_append.1 h).2.2 q hq p List.mem_cons_self
    rw [← List.singleton_append, ← List.append_assoc] at h
    rw [List.foldl_cons, insert_of_forall_lt hlast, ih _ h, List.append_assoc]
    rfl

end Named

namespace FieldWeights

variable {ws ws' : FieldWeights}

theorem ext_get? (h : ∀ field, ws.get? field = ws'.get? field) : ws = ws' := by
  obtain ⟨entries, sorted⟩ := ws
  obtain ⟨entries', sorted'⟩ := ws'
  obtain rfl : entries = entries' := sorted.eq_of_lookup sorted' h
  rfl

theorem eq_iff_get? : ws = ws' ↔ ∀ field, ws.get? field = ws'.get? field :=
  ⟨fun h _ => h ▸ rfl, ext_get?⟩

theorem get?_insert (ws : FieldWeights) (field : String) (weight : UInt32) (f : String) :
    (ws.insert field weight).get? f = if f = field then some weight else ws.get? f :=
  Named.lookup_insert field weight ws.entries f

theorem insert_comm {field field' : String} (h : field ≠ field') (weight weight' : UInt32)
    (ws : FieldWeights) :
    (ws.insert field weight).insert field' weight' =
      (ws.insert field' weight').insert field weight := by
  apply ext_get?
  intro f
  rw [get?_insert, get?_insert, get?_insert, get?_insert]
  by_cases hf : f = field
  · rw [if_pos hf, if_pos hf, if_neg (hf ▸ h)]
  · rw [if_neg hf, if_neg hf]

/-- Sets weights one after another. -/
def insertAll (ps : List (String × UInt32)) (ws : FieldWeights) : FieldWeights :=
  ps.foldl (fun ws p => ws.insert p.1 p.2) ws

/-- Weights of different fields may be set in any order. -/
theorem insertAll_perm {ps qs : List (String × UInt32)} (h : ps.Perm qs)
    (hdistinct : (ps.map Prod.fst).Nodup) (ws : FieldWeights) : ws.insertAll ps = ws.insertAll qs := by
  refine h.foldl_eq' ?_ ws
  intro p hp q hq ws
  by_cases hpq : p = q
  · rw [hpq]
  · have hfields : p.1 ≠ q.1 := fun hsame => hpq (List.inj_on_of_nodup_map hdistinct hp hq hsame)
    exact insert_comm hfields p.2 q.2 ws

end FieldWeights

end ResultCache
