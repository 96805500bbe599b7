/-
Dropping entries, one after another. Every slab an operation passes through while it drops entries
is reached by removals alone (`Removals`), and on all of these the size of an entry is covered by
the bytes charged. Trimming keeps the longest beginning of the list that fits the budget; emptying
chosen slots keeps the rest of the list in order.
-/
import ResultCache.Proofs.Table.Holding
import ResultCache.Proofs.Table.Shelf

namespace ResultCache.Slab

/-! ## Removals -/

/-- The second slab is reached from the first one by emptying slots, each of which held an entry. -/
inductive Removals : Slab → Slab → Prop where
  | refl (t : Slab) : Removals t t
  | step {t t' u : Slab} {s : Nat} {e : Entry} :
      t.remove? s = some (e, t') → Removals t' u → Removals t u

theorem Removals.single {t t' : Slab} {s : Nat} {e : Entry} (h : t.remove? s = some (e, t')) :
    Removals t t' :=
  .step h (.refl t')

theorem Removals.trans {t u v : Slab} (h : Removals t u) (h' : Removals u v) : Removals t v := by
  induction h with
  | refl => exact h'
  | step hr _ ih => exact .step hr (ih h')

theorem trimFrom_removals (budget dropped : Nat) (t : Slab) :
    Removals t (t.trimFrom budget dropped).2 := by
  induction dropped, t using Slab.trimFrom.induct budget with
  | case1 dropped t hlt e t' hev _ ih =>
    obtain ⟨s, -, hr⟩ := Option.bind_eq_some_iff.1 hev
    have htrim : t.trimFrom budget dropped = t'.trimFrom budget (dropped + 1) := by
      rw [Slab.trimFrom, if_pos hlt]
      split <;> simp_all
    rw [htrim]
    exact .step hr ih
  | case2 dropped t hlt hev =>
    have htrim : t.trimFrom budget dropped = (dropped, t) := by
      rw [Slab.trimFrom, if_pos hlt]
      split <;> simp_all
    rw [htrim]
    exact .refl t
  | case3 dropped t hlt =>
    rw [Slab.trimFrom, if_neg hlt]
    exact .refl t

/-- Empties one more slot, counting the entries dropped. -/
def dropSlot (acc : Nat × Slab) (s : Nat) : Nat × Slab :=
  match acc.2.remove? s with
  | some (_, t') => (acc.1 + 1, t')
  | none => acc

theorem removeAll_eq (L : List Nat) (t : Slab) : t.removeAll L = L.foldl dropSlot (0, t) := rfl

theorem removeAll_removals (L : List Nat) (t : Slab) : Removals t (t.removeAll L).2 := by
  rw [removeAll_eq]
  generalize 0 = n
  induction L generalizing n t with
  | nil => exact .refl t
  | cons s L ih =>
    rw [List.foldl_cons]
    cases hr : t.remove? s with
    | none =>
      have hdrop : dropSlot (n, t) s = (n, t) := by unfold dropSlot; rw [hr]
      rw [hdrop]
      exact ih t n
    | some p =>
      obtain ⟨e, t'⟩ := p
      have hdrop : dropSlot (n, t) s = (n + 1, t') := by unfold dropSlot; rw [hr]
      rw [hdrop]
      exact .step hr (ih t' (n + 1))

namespace Holds

variable {t t' u : Slab} {P : List (Nat × Entry)} {s : Nat} {e : Entry}

/-- Whatever a slot gives up is an entry of the list. -/
theorem of_remove? (h : t.Holds P) (hr : t.remove? s = some (e, t')) :
    ∃ A B, P = A ++ (s, e) :: B ∧ t'.Holds (A ++ B) := by
  have he : t.entryAt? s = some e := by
    unfold Slab.remove? at hr
    cases he : t.entryAt? s with
    | none => rw [he] at hr; cases hr
    | some e' => rw [he] at hr; cases hr; rfl
  obtain ⟨A, B, rfl⟩ := List.append_of_mem ((h.held s e).1 he)
  obtain ⟨t'', hr', h'⟩ := h.remove?
  rw [hr] at hr'
  cases hr'
  exact ⟨A, B, rfl, h'⟩

theorem removals (h : t.Holds P) (hr : Removals t u) : ∃ Q, u.Holds Q := by
  induction hr generalizing P with
  | refl => exact ⟨P, h⟩
  | step hs _ ih =>
    obtain ⟨A, B, -, h'⟩ := h.of_remove? hs
    exact ih h'

/-- The byte count never falls below zero: what is taken off was charged. -/
theorem size_le_of_remove? (h : t.Holds P) (hr : t.remove? s = some (e, t')) :
    e.sizeBytes ≤ t.usedBytes := by
  obtain ⟨A, B, rfl, -⟩ := h.of_remove? hr
  exact h.size_le_used (s := s) (by simp)

theorem used_eq_totalSize (h : t.Holds P) : t.usedBytes = totalSize (P.map Prod.snd) := by
  rw [h.used, totalSize, List.map_map]; rfl

/-! ## Trimming -/

theorem evictTail? (h : t.Holds (P ++ [(s, e)])) :
    ∃ t', t.evictTail? = some (e, t') ∧ t'.Holds P := by
  obtain ⟨t', hr, h'⟩ := h.remove?
  rw [List.append_nil] at h'
  refine ⟨t', ?_, h'⟩
  unfold Slab.evictTail?
  rw [h.order.tail, List.map_append, List.map_singleton, List.getLast?_concat, Option.bind_some, hr]

/-- Trimming keeps the longest beginning of the list that fits and counts what it drops. -/
theorem trimFrom (h : t.Holds P) (budget : Nat) : ∀ dropped,
    ∃ Q, (t.trimFrom budget dropped).2.Holds Q ∧ Q.map Prod.snd = fitting budget (P.map Prod.snd) ∧
      (t.trimFrom budget dropped).1 + Q.length = dropped + P.length := by
  induction P using List.reverseRecOn generalizing t with
  | nil =>
    intro dropped
    refine ⟨[], ?_⟩
    rw [Slab.trimFrom, if_neg (by rw [h.used]; exact Nat.not_lt_zero _)]
    exact ⟨h, rfl, rfl⟩
  | append_singleton P p ih =>
    intro dropped
    by_cases hlt : budget < t.usedBytes
    · -- the last entry goes, and the rest is trimmed on
      obtain ⟨t', hev, h'⟩ := h.evictTail? (s := p.1) (e := p.2)
      obtain ⟨Q, hQ, hfit, hcount⟩ := ih h' (dropped + 1)
      have htrim : t.trimFrom budget dropped = t'.trimFrom budget (dropped + 1) := by
        rw [Slab.trimFrom, if_pos hlt]
        split
        · rename_i e₁ t₁ heq
          rw [hev] at heq
          cases heq; rfl
        · rename_i heq
          rw [hev] at heq
          cases heq
      rw [h.used_eq_totalSize, List.map_append, List.map_singleton] at hlt
      rw [htrim, List.map_append, List.map_singleton, fitting_concat hlt]
      refine ⟨Q, hQ, hfit, ?_⟩
      rw [hcount, List.length_append, List.length_singleton]
      omega
    · refine ⟨P ++ [p], ?_⟩
      rw [Slab.trimFrom, if_neg hlt]
      rw [h.used_eq_totalSize, Nat.not_lt] at hlt
      exact ⟨h, (fitting_eq_self hlt).symm, rfl⟩

theorem trim (h : t.Holds P) (budget : Nat) :
    ∃ Q, (t.trim budget).2.Holds Q ∧ Q.map Prod.snd = fitting budget (P.map Prod.snd) ∧
      (t.trim budget).1 + Q.length = P.length := by
  obtain ⟨Q, hQ, hfit, hcount⟩ := h.trimFrom budget 0
  rw [Nat.zero_add] at hcount
  exact ⟨Q, hQ, hfit, hcount⟩

/-! ## Emptying chosen slots -/

theorem mem_slotsWhere (h : t.Holds P) (p : Entry → Bool) :
    s ∈ t.slotsWhere p ↔ s ∈ (P.filter fun q => p q.2).map Prod.fst := by
  simp only [slotsWhere, List.mem_filter, List.mem_range, Option.any_eq_true, List.mem_map,
    Prod.exists, exists_and_right, exists_eq_right]
  constructor
  · rintro ⟨-, e, he, hp⟩
    exact ⟨e, (h.held s e).1 he, hp⟩
  · rintro ⟨e, hm, hp⟩
    exact ⟨h.slot_lt hm, e, (h.held s e).2 hm, hp⟩

theorem slotsWhere_perm (h : t.Holds P) (p : Entry → Bool) :
    (t.slotsWhere p).Perm ((P.filter fun q => p q.2).map Prod.fst) := by
  refine (List.perm_ext_iff_of_nodup ?_ ?_).2 fun s => h.mem_slotsWhere p
  · exact List.nodup_range.filter _
  · exact h.slotsNodup.sublist (List.filter_sublist.map _)

theorem slotsWhere_length (h : t.Holds P) (p : Entry → Bool) :
    (t.slotsWhere p).length = (P.map Prod.snd).countP p := by
  rw [(h.slotsWhere_perm p).length_eq, List.length_map, ← List.countP_eq_length_filter,
    List.countP_map]; rfl

/-- Emptying slots that all hold something drops as many entries and keeps the rest in order. -/
theorem foldl_dropSlot (L : List Nat) (hL : L.Nodup) : ∀ {t : Slab} {P : List (Nat × Entry)} (n : Nat),
    t.Holds P → (∀ s ∈ L, s ∈ P.map Prod.fst) →
    ∃ t', L.foldl dropSlot (n, t) = (n + L.length, t') ∧ t'.Holds (P.filter fun p => p.1 ∉ L) := by
  induction L with
  | nil =>
    intro t P n h _
    exact ⟨t, rfl, by simpa using h⟩
  | cons s L ih =>
    intro t P n h hm
    obtain ⟨hs, hL'⟩ := List.nodup_cons.1 hL
    obtain ⟨⟨s', e⟩, hp, rfl⟩ := List.mem_map.1 (hm s (List.mem_cons_self ..))
    obtain ⟨A, B, rfl⟩ := List.append_of_mem hp
    obtain ⟨t', hr, h'⟩ := h.remove?
    have hm' : ∀ i ∈ L, i ∈ (A ++ B).map Prod.fst := by
      intro i hi
      obtain ⟨⟨i', e'⟩, hp', rfl⟩ := List.mem_map.1 (hm i (List.mem_cons_of_mem _ hi))
      exact List.mem_map_of_mem (h.mem_rest_iff.2 ⟨hp', fun hii => hs (hii ▸ hi)⟩)
    obtain ⟨u, hfold, hu⟩ := ih hL' (n + 1) h' hm'
    refine ⟨u, ?_, ?_⟩
    · have hdrop : dropSlot (n, t) s' = (n + 1, t') := by unfold dropSlot; rw [hr]
      rw [List.foldl_cons, hdrop, hfold, List.length_cons, Nat.add_right_comm, Nat.add_assoc]
    · -- none of the others stands in the slot just emptied
      have hfilter : (A ++ B).filter (fun p => decide (p.1 ∉ L)) =
          (A ++ (s', e) :: B).filter fun p => decide (p.1 ∉ s' :: L) := by
        have hne : ∀ p ∈ A ++ B, p.1 ≠ s' := fun p hp hps =>
          h.notMem_slots (hps ▸ List.mem_map_of_mem hp)
        rw [List.filter_append, List.filter_append, List.filter_cons_of_neg (by simp)]
        congr 1 <;> refine List.filter_congr fun p hp => ?_
        · simp [hne p (List.mem_append_left _ hp)]
        · simp [hne p (List.mem_append_right _ hp)]
      exact hfilter ▸ hu

theorem removeIndex (h : t.Holds P) (index : Int64) :
    (t.removeIndex index).1 = (P.map Prod.snd).countP (·.index = index) ∧
      ∃ Q, (t.removeIndex index).2.Holds Q ∧
        Q.map Prod.snd = (P.map Prod.snd).filter (·.index ≠ index) := by
  have hmem := fun s => h.mem_slotsWhere (s := s) fun e => decide (e.index = index)
  obtain ⟨t', hfold, h'⟩ := foldl_dropSlot (t.slotsWhere fun e => e.index = index)
    (List.nodup_range.filter _) 0 h fun s hs =>
      (List.filter_sublist.map _).subset ((hmem s).1 hs)
  have heq : t.removeIndex index = ((t.slotsWhere fun e => e.index = index).length, t') := by
    unfold Slab.removeIndex
    rw [removeAll_eq, hfold, Nat.zero_add]
  rw [heq]
  refine ⟨h.slotsWhere_length _, _, h', ?_⟩
  rw [List.filter_map]
  congr 1
  refine List.filter_congr fun p hp => ?_
  -- a slot holds one entry, so `p` itself decides whether its slot is among those emptied
  have : p.1 ∈ t.slotsWhere (fun e => e.index = index) ↔ p.2.index = index := by
    rw [hmem, List.mem_map]
    constructor
    · rintro ⟨q, hq, hqp⟩
      obtain ⟨hq, hi⟩ := List.mem_filter.1 hq
      have : q = p := List.inj_on_of_nodup_map h.slotsNodup hq hp hqp
      subst this
      simpa using hi
    · exact fun hi => ⟨p, List.mem_filter.2 ⟨hp, by simpa using hi⟩, rfl⟩
  simp [this]

/-! ## Dropping everything -/

theorem drain (h : t.Holds P) : t.drain.1 = P.length ∧ t.drain.2.Holds [] := by
  refine ⟨?_, empty_holds⟩
  show (t.slotsWhere fun _ => true).length = P.length
  rw [h.slotsWhere_length, List.countP_true, List.length_map]

end Holds

end ResultCache.Slab
