/-
Values under names, sorted by name, each name at most once: equal contents are equal lists in
whatever order they were put in. `insert_sorted` says that putting one more value in keeps the
order.
-/

namespace ResultCache.Named

variable {α : Type}

/-- Strictly sorted by name. -/
def Sorted (ps : List (String × α)) : Prop := ps.Pairwise fun a b => a.1 < b.1

instance : (ps : List (String × α)) → Decidable (Sorted ps) :=
  fun ps => inferInstanceAs (Decidable (ps.Pairwise fun a b => a.1 < b.1))

/-- Puts a value among sorted ones; an older one of its name is replaced. -/
def insert (name : String) (value : α) : List (String × α) → List (String × α)
  | [] => [(name, value)]
  | (n, v) :: rest =>
    if name < n then (name, value) :: (n, v) :: rest
    else if name = n then (name, value) :: rest
    else (n, v) :: insert name value rest

/-- The values in order, the last one of each name. -/
def sort (ps : List (String × α)) : List (String × α) :=
  ps.foldl (fun sorted p => insert p.1 p.2 sorted) []

/-! ## Order -/

theorem mem_insert {name : String} {value : α} {ps : List (String × α)} {p : String × α}
    (h : p ∈ insert name value ps) : p = (name, value) ∨ p ∈ ps := by
  induction ps with
  | nil => exact .inl (List.mem_singleton.1 h)
  | cons q rest ih =>
    obtain ⟨n, v⟩ := q
    rw [insert] at h
    by_cases hlt : name < n
    · rw [if_pos hlt] at h
      exact List.mem_cons.1 h
    · rw [if_neg hlt] at h
      by_cases he : name = n
      · rw [if_pos he] at h
        rcases List.mem_cons.1 h with h | h
        · exact .inl h
        · exact .inr (List.mem_cons_of_mem _ h)
      · rw [if_neg he] at h
        rcases List.mem_cons.1 h with rfl | h
        · exact .inr List.mem_cons_self
        · rcases ih h with h | h
          · exact .inl h
          · exact .inr (List.mem_cons_of_mem _ h)

theorem insert_sorted {name : String} {value : α} {ps : List (String × α)} (h : Sorted ps) :
    Sorted (insert name value ps) := by
  induction ps with
  | nil => exact List.pairwise_singleton _ _
  | cons q rest ih =>
    obtain ⟨n, v⟩ := q
    obtain ⟨before, hrest⟩ := List.pairwise_cons.1 h
    rw [insert]
    by_cases hlt : name < n
    · rw [if_pos hlt]
      refine List.pairwise_cons.2 ⟨?_, h⟩
      intro p hp
      rcases List.mem_cons.1 hp with rfl | hp
      · exact hlt
      · exact String.lt_trans hlt (before p hp)
    · rw [if_neg hlt]
      by_cases he : name = n
      · rw [if_pos he]
        refine List.pairwise_cons.2 ⟨?_, hrest⟩
        intro p hp
        rw [he]
        exact before p hp
      · rw [if_neg he]
        refine List.pairwise_cons.2 ⟨?_, ih hrest⟩
        intro p hp
        rcases mem_insert hp with rfl | hp
        · -- two names neither of which is the smaller one are equal
          apply Decidable.byContradiction
          intro hn
          exact he (String.le_antisymm (String.not_lt.1 hn) (String.not_lt.1 hlt))
        · exact before p hp

theorem sort_sorted (ps : List (String × α)) : Sorted (sort ps) := by
  suffices ∀ (ps sorted : List (String × α)), Sorted sorted →
      Sorted (ps.foldl (fun sorted p => insert p.1 p.2 sorted) sorted) from
    this ps [] .nil
  intro ps
  induction ps with
  | nil => intro sorted h; exact h
  | cons p rest ih => intro sorted h; exact ih _ (insert_sorted h)

end ResultCache.Named
