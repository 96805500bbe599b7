/-
What a slab holds. `Holds` ties the order, the entries in the slots, the key map, the list of empty
slots and the byte count to one list of slots with their entries, from the most to the least
recently used. Every operation on slabs is described by what it does to that list.
-/
import ResultCache.Proofs.Table.Order
import Mathlib.Algebra.GroupWithZero.Nat

namespace ResultCache.Slab

/-- A slab holds the entries of a list, each in the slot beside it and the most recently used one
first, and nothing else. -/
structure Holds (t : Slab) (P : List (Nat × Entry)) : Prop where
  order : t.Ordered (P.map Prod.fst)
  held : ∀ s e, t.entryAt? s = some e ↔ (s, e) ∈ P
  distinct : (P.map fun p => p.2.key).Nodup
  keys : ∀ k s, t.keys[k]? = some s ↔ ∃ e, (s, e) ∈ P ∧ e.key = k
  count : t.keys.size = P.length
  freeNodup : t.free.Nodup
  free : ∀ s, s ∈ t.free ↔ s < t.slots.size ∧ t.entryAt? s = none
  used : t.usedBytes = (P.map fun p => p.2.sizeBytes).sum

theorem empty_holds : empty.Holds [] where
  order := empty_ordered
  held s e := by simp [entryAt?, empty]
  distinct := List.nodup_nil
  keys k s := by simp [empty]
  count := by simp [empty]
  freeNodup := List.nodup_nil
  free s := by simp [empty]
  used := rfl

namespace Holds

variable {t : Slab} {P R : List (Nat × Entry)} {s : Nat} {e : Entry}

/-! ## Reading -/

theorem slotsNodup (h : t.Holds P) : (P.map Prod.fst).Nodup := h.order.nodup

theorem slot_lt (h : t.Holds P) (hm : (s, e) ∈ P) : s < t.slots.size :=
  h.order.links.lt_size s (List.mem_map_of_mem hm)

/-- A slot that holds nothing is not in the order. -/
theorem notMem_of_entryAt?_none (h : t.Holds P) (hs : t.entryAt? s = none) :
    s ∉ P.map Prod.fst := by
  intro hm
  obtain ⟨⟨s', e⟩, hp, rfl⟩ := List.mem_map.1 hm
  rw [(h.held s' e).2 hp] at hs
  cases hs

theorem find?_eq_some_iff (h : t.Holds P) {k : UInt64} :
    t.find? k = some (s, e) ↔ (s, e) ∈ P ∧ e.key = k := by
  unfold Slab.find?
  constructor
  · intro hf
    obtain ⟨s', hk, hf⟩ := Option.bind_eq_some_iff.1 hf
    obtain ⟨e', he, hf⟩ := Option.bind_eq_some_iff.1 hf
    cases hf
    -- the key map names the key of the entry found
    obtain ⟨e', hp, rfl⟩ := (h.keys k s).1 hk
    rw [(h.held s e').2 hp] at he
    cases he
    exact ⟨hp, rfl⟩
  · rintro ⟨hp, rfl⟩
    rw [(h.keys e.key s).2 ⟨e, hp, rfl⟩, Option.bind_eq_bind, Option.bind_some,
      (h.held s e).2 hp]
    rfl

theorem find?_eq_none_iff (h : t.Holds P) {k : UInt64} :
    t.find? k = none ↔ ∀ p ∈ P, p.2.key ≠ k := by
  constructor
  · rintro hf ⟨s, e⟩ hp hk
    rw [h.find?_eq_some_iff.2 ⟨hp, hk⟩] at hf
    cases hf
  · intro hk
    rcases hf : t.find? k with _ | ⟨s, e⟩
    · rfl
    · obtain ⟨hp, he⟩ := h.find?_eq_some_iff.1 hf
      exact absurd he (hk _ hp)

theorem linked (h : t.Holds P) : t.linked = P.map Prod.fst := h.order.linked

theorem entries (h : t.Holds P) : t.entries = P.map Prod.snd := by
  have hread : ∀ Q : List (Nat × Entry), (∀ p ∈ Q, p ∈ P) →
      (Q.map Prod.fst).filterMap t.entryAt? = Q.map Prod.snd := by
    intro Q hQ
    induction Q with
    | nil => rfl
    | cons p Q ih =>
      rw [List.map_cons, List.filterMap_cons_some ((h.held p.1 p.2).2 (hQ p (List.mem_cons_self ..))),
        ih fun q hq => hQ q (List.mem_cons_of_mem _ hq), List.map_cons]
  unfold Slab.entries
  rw [h.linked, hread P fun _ hp => hp]

theorem length (h : t.Holds P) : t.length = P.length := h.count

theorem size_le_used (h : t.Holds P) (hm : (s, e) ∈ P) : e.sizeBytes ≤ t.usedBytes := by
  obtain ⟨A, B, rfl⟩ := List.append_of_mem hm
  rw [h.used]
  simp only [List.map_append, List.map_cons, List.sum_append, List.sum_cons]
  omega

/-! ## Moving to the front -/

/-- Other links in the same slab give the same entries in another order. -/
theorem relink {t' : Slab} (h : t.Holds P) (hr : Relinked t t') (ho : t'.Ordered (R.map Prod.fst))
    (hp : R.Perm P) : t'.Holds R where
  order := ho
  held s e := by rw [hr.held, h.held, hp.mem_iff]
  distinct := (hp.map _).nodup_iff.2 h.distinct
  keys k s := by simp only [hr.keys, h.keys, hp.mem_iff]
  count := by rw [hr.keys, h.count, hp.length_eq]
  freeNodup := hr.free ▸ h.freeNodup
  free s := by rw [hr.free, hr.size, hr.held, h.free]
  used := by rw [hr.usedBytes, h.used, (hp.map _).sum_nat]

theorem promote (h : t.Holds (P ++ (s, e) :: R)) : (t.promote s).Holds ((s, e) :: (P ++ R)) := by
  refine h.relink (promote_relinked s t) ?_ List.perm_middle.symm
  have ho := h.order
  rw [List.map_append, List.map_cons] at ho
  rw [List.map_cons, List.map_append]
  exact ho.promote

end Holds

/-! ## Filling and emptying slots -/

/-- Puts an entry into a slot or takes it out. -/
def setEntry (s : Nat) (o : Option Entry) (t : Slab) : Slab :=
  { t with slots := t.slots.modify s fun x => { x with entry := o } }

theorem Ordered.setEntry {t : Slab} {L : List Nat} (s : Nat) (o : Option Entry) (h : t.Ordered L) :
    (t.setEntry s o).Ordered L := by
  have links : ∀ {L : List Nat} {prev : Option Nat}, Links t.slots prev L none →
      Links (t.setEntry s o).slots prev L none := by
    intro L prev hL
    induction L generalizing prev with
    | nil => trivial
    | cons a L ih =>
      obtain ⟨⟨e, he⟩, hL⟩ := hL
      refine ⟨?_, ih hL⟩
      unfold Slab.setEntry
      rw [Array.getElem?_modify]
      split
      · exact ⟨o, by rw [he]; rfl⟩
      · exact ⟨e, he⟩
  exact ⟨h.nodup, links h.links, h.head, h.tail⟩

theorem Ordered.push {t : Slab} {L : List Nat} (x : Slot) (h : t.Ordered L) :
    Ordered { t with slots := t.slots.push x } L := by
  have links : ∀ {L : List Nat} {prev : Option Nat}, Links t.slots prev L none →
      Links (t.slots.push x) prev L none := by
    intro L prev hL
    induction L generalizing prev with
    | nil => trivial
    | cons a L ih =>
      obtain ⟨⟨e, he⟩, hL⟩ := hL
      have hlt : a < t.slots.size := (Array.getElem?_eq_some_iff.1 he).1
      exact ⟨⟨e, by rw [Array.getElem?_push, if_neg (by omega), he]⟩, ih hL⟩
  exact ⟨h.nodup, links h.links, h.head, h.tail⟩

theorem entryAt?_setEntry {t : Slab} {s : Nat} {o : Option Entry} (hs : s < t.slots.size) (i : Nat) :
    (t.setEntry s o).entryAt? i = if s = i then o else t.entryAt? i := by
  unfold entryAt? setEntry
  rw [Array.getElem?_modify]
  split
  · rename_i hi
    subst hi
    rw [Array.getElem?_eq_getElem hs]; rfl
  · rfl

theorem entryAt?_push {t : Slab} {x : Slot} (i : Nat) :
    entryAt? { t with slots := t.slots.push x } i =
      if t.slots.size = i then x.entry else t.entryAt? i := by
  unfold entryAt?
  rw [Array.getElem?_push]
  split
  · rename_i hi
    rw [if_pos hi.symm]; rfl
  · rename_i hi
    rw [if_neg (Ne.symm hi)]

theorem remove?_eq {t : Slab} {s : Nat} {e : Entry} (he : t.entryAt? s = some e) :
    t.remove? s = some (e, { (t.setEntry s none).detach s with
      keys := t.keys.erase e.key
      usedBytes := t.usedBytes - e.sizeBytes
      free := s :: t.free }) := by
  have hr := detach_relinked s (t.setEntry s none)
  have hk : ((t.setEntry s none).detach s).keys = t.keys := hr.keys
  have hu : ((t.setEntry s none).detach s).usedBytes = t.usedBytes := hr.usedBytes
  have hf : ((t.setEntry s none).detach s).free = t.free := hr.free
  rw [← hk, ← hu, ← hf, remove?, he]
  rfl

namespace Holds

variable {t : Slab} {P R : List (Nat × Entry)} {s : Nat} {e : Entry}

/-! ## Dropping an entry -/

theorem notMem_slots (h : t.Holds (P ++ (s, e) :: R)) : s ∉ (P ++ R).map Prod.fst := by
  have := h.slotsNodup
  rw [List.map_append, List.map_cons] at this
  rw [List.map_append]
  exact (List.nodup_middle.1 this).notMem

theorem notMem_keys (h : t.Holds (P ++ (s, e) :: R)) :
    e.key ∉ (P ++ R).map fun p => p.2.key := by
  have := h.distinct
  rw [List.map_append, List.map_cons] at this
  rw [List.map_append]
  exact (List.nodup_middle.1 this).notMem

theorem mem_rest_iff (h : t.Holds (P ++ (s, e) :: R)) {i : Nat} {e' : Entry} :
    (i, e') ∈ P ++ R ↔ (i, e') ∈ P ++ (s, e) :: R ∧ s ≠ i := by
  rw [List.perm_middle.mem_iff, List.mem_cons]
  constructor
  · intro hp
    exact ⟨.inr hp, fun hs => h.notMem_slots (hs ▸ List.mem_map_of_mem hp)⟩
  · rintro ⟨hp | hp, hne⟩
    · cases hp; exact absurd rfl hne
    · exact hp

theorem keys_erase (h : t.Holds (P ++ (s, e) :: R)) (k : UInt64) (i : Nat) :
    (t.keys.erase e.key)[k]? = some i ↔ ∃ e', (i, e') ∈ P ++ R ∧ e'.key = k := by
  have he := (h.held s e).2 (by simp)
  simp only [Std.HashMap.getElem?_erase, h.mem_rest_iff]
  split
  · -- no other entry has the key of the one dropped
    rename_i hk
    rw [beq_iff_eq] at hk
    simp only [reduceCtorEq, false_iff, not_exists]
    rintro e' ⟨hp, hk'⟩
    exact h.notMem_keys (List.mem_map.2 ⟨_, h.mem_rest_iff.2 hp, hk'.trans hk.symm⟩)
  · rename_i hk
    rw [beq_iff_eq] at hk
    rw [h.keys]
    constructor
    · rintro ⟨e', hp, rfl⟩
      refine ⟨e', ⟨hp, ?_⟩, rfl⟩
      rintro rfl
      rw [(h.held s e').2 hp] at he
      cases he
      exact hk rfl
    · rintro ⟨e', ⟨hp, -⟩, rfl⟩
      exact ⟨e', hp, rfl⟩

theorem size_erase (h : t.Holds (P ++ (s, e) :: R)) :
    (t.keys.erase e.key).size = (P ++ R).length := by
  have hin : e.key ∈ t.keys := by
    rw [Std.HashMap.mem_iff_isSome_getElem?, (h.keys e.key s).2 ⟨e, by simp, rfl⟩]
    rfl
  have hcount := h.count
  simp only [Std.HashMap.size_erase, if_pos hin, List.length_append, List.length_cons] at hcount ⊢
  omega

/-- Emptying a slot takes its entry off the list. -/
theorem remove? (h : t.Holds (P ++ (s, e) :: R)) :
    ∃ t', t.remove? s = some (e, t') ∧ t'.Holds (P ++ R) := by
  have hm : (s, e) ∈ P ++ (s, e) :: R := by simp
  have hlt := h.slot_lt hm
  have he := (h.held s e).2 hm
  have order : ((t.setEntry s none).detach s).Ordered ((P ++ R).map Prod.fst) := by
    have ho := h.order
    rw [List.map_append, List.map_cons] at ho
    rw [List.map_append]
    exact (ho.setEntry s none).detach
  have hr := detach_relinked s (t.setEntry s none)
  have held : ∀ i, ((t.setEntry s none).detach s).entryAt? i = if s = i then none else t.entryAt? i :=
    fun i => by rw [hr.held, entryAt?_setEntry hlt]
  have hsize : ((t.setEntry s none).detach s).slots.size = t.slots.size :=
    hr.size.trans Array.size_modify
  have heq := remove?_eq he
  -- from here on only the facts above count, not how the slot is taken out of the order
  generalize (t.setEntry s none).detach s = u at order hr held hsize heq
  refine ⟨_, heq, ?_⟩
  exact {
    order := order.congr rfl rfl rfl
    held := by
      intro i e'
      refine (Eq.congr_left (held i)).trans ?_
      rw [h.mem_rest_iff, ← h.held]
      split <;> simp [*]
    distinct := h.distinct.sublist (List.Sublist.map _ (by simp))
    keys := h.keys_erase
    count := h.size_erase
    freeNodup := by
      refine List.nodup_cons.2 ⟨fun hs => ?_, h.freeNodup⟩
      rw [((h.free s).1 hs).2] at he
      cases he
    free := by
      intro i
      show i ∈ s :: t.free ↔ i < u.slots.size ∧ u.entryAt? i = none
      rw [List.mem_cons, h.free, held, hsize]
      by_cases hi : s = i
      · subst hi
        simp [hlt]
      · simp [hi, Ne.symm hi]
    used := by
      have hused := h.used
      simp only [List.map_append, List.map_cons, List.sum_append_nat, List.sum_cons] at hused ⊢
      omega }

/-! ## Adding an entry -/

/-- A slot taken for an entry: one that was empty, or a new one behind all others. Nothing else
changes but that it is not empty any more. -/
structure Occupied (t t' : Slab) (s : Nat) (e : Entry) : Prop where
  keys : t'.keys = t.keys
  usedBytes : t'.usedBytes = t.usedBytes
  empty : t.entryAt? s = none
  lt : s < t'.slots.size
  held : ∀ i, t'.entryAt? i = if s = i then some e else t.entryAt? i
  order : ∀ L, t.Ordered L → t'.Ordered L
  freeNodup : t'.free.Nodup
  free : ∀ i, i ∈ t'.free ↔ i < t'.slots.size ∧ t'.entryAt? i = none

theorem occupy_cons {rest : List Nat} (hf : t.free = s :: rest) :
    t.occupy e = (s, { t.setEntry s (some e) with free := rest }) := by
  rw [occupy, hf]; rfl

theorem occupy_nil (hf : t.free = []) :
    t.occupy e = (t.slots.size, { t with slots := t.slots.push { entry := some e } }) := by
  rw [occupy, hf]

theorem occupied (hnodup : t.free.Nodup)
    (hfree : ∀ s, s ∈ t.free ↔ s < t.slots.size ∧ t.entryAt? s = none) (e : Entry) :
    Occupied t (t.occupy e).2 (t.occupy e).1 e := by
  cases hf : t.free with
  | cons s rest =>
    rw [occupy_cons hf]
    rw [hf] at hnodup hfree
    obtain ⟨hlt, hs⟩ := (hfree s).1 (List.mem_cons_self ..)
    have held : ∀ i, (t.setEntry s (some e)).entryAt? i = if s = i then some e else t.entryAt? i :=
      entryAt?_setEntry hlt
    have size : (t.setEntry s (some e)).slots.size = t.slots.size := Array.size_modify
    refine ⟨rfl, rfl, hs, size ▸ hlt, held, fun L ho => (ho.setEntry s (some e)).congr rfl rfl rfl,
      hnodup.of_cons, ?_⟩
    intro i
    show i ∈ rest ↔ i < (t.setEntry s (some e)).slots.size ∧ (t.setEntry s (some e)).entryAt? i = none
    rw [held, size]
    by_cases hi : s = i
    · subst hi; simp [(List.nodup_cons.1 hnodup).1]
    · rw [if_neg hi, ← hfree, List.mem_cons, or_iff_right (Ne.symm hi)]
  | nil =>
    rw [occupy_nil hf]
    -- a slot behind all others holds nothing
    have hs : t.entryAt? t.slots.size = none := by
      unfold entryAt?
      rw [Array.getElem?_eq_none (Nat.le_refl _)]; rfl
    have size : (t.slots.push { entry := some e }).size = t.slots.size + 1 := Array.size_push _
    refine ⟨rfl, rfl, hs, size ▸ Nat.lt_succ_self _, entryAt?_push, fun L ho => ho.push _, hnodup, ?_⟩
    intro i
    show i ∈ t.free ↔ i < (t.slots.push { entry := some e }).size ∧
      entryAt? { t with slots := t.slots.push { entry := some e } } i = none
    rw [hfree, size, entryAt?_push]
    by_cases hi : t.slots.size = i
    · subst hi; simp
    · rw [if_neg hi]
      exact and_congr_left fun _ => by omega

theorem keys_insert (h : t.Holds P) (hk : e.key ∉ P.map fun p => p.2.key) (s : Nat) (k : UInt64)
    (i : Nat) :
    (t.keys.insert e.key s)[k]? = some i ↔ ∃ e', (i, e') ∈ (s, e) :: P ∧ e'.key = k := by
  rw [Std.HashMap.getElem?_insert]
  split
  · -- the new entry is the only one of its key
    rename_i hk'
    rw [beq_iff_eq] at hk'
    subst hk'
    constructor
    · rintro hsi
      cases hsi
      exact ⟨e, List.mem_cons_self .., rfl⟩
    · rintro ⟨e', hp, hk'⟩
      rcases List.mem_cons.1 hp with hp | hp
      · cases hp
        rfl
      · exact absurd (List.mem_map.2 ⟨_, hp, hk'⟩) hk
  · rename_i hk'
    rw [beq_iff_eq] at hk'
    rw [h.keys]
    constructor
    · rintro ⟨e', hp, rfl⟩
      exact ⟨e', List.mem_cons_of_mem _ hp, rfl⟩
    · rintro ⟨e', hp, rfl⟩
      rcases List.mem_cons.1 hp with hp | hp
      · cases hp
        exact absurd rfl hk'
      · exact ⟨e', hp, rfl⟩

theorem size_insert (h : t.Holds P) (hk : e.key ∉ P.map fun p => p.2.key) (s : Nat) :
    (t.keys.insert e.key s).size = P.length + 1 := by
  have hnot : e.key ∉ t.keys := by
    rw [Std.HashMap.mem_iff_isSome_getElem?, Option.isSome_iff_exists]
    rintro ⟨i, hi⟩
    obtain ⟨e', hp, hk'⟩ := (h.keys _ _).1 hi
    exact hk (List.mem_map.2 ⟨_, hp, hk'⟩)
  rw [Std.HashMap.size_insert, if_neg hnot, h.count]

/-- An entry of a key that is not held becomes the first one of the list. -/
theorem insert (h : t.Holds P) (hk : e.key ∉ P.map fun p => p.2.key) :
    ∃ s, (t.insert e).Holds ((s, e) :: P) := by
  -- the entry is charged before a slot is taken for it
  have ho := occupied (t := { t with usedBytes := t.usedBytes + e.sizeBytes }) h.freeNodup h.free e
  unfold Slab.insert
  dsimp only
  generalize hocc : ({ t with usedBytes := t.usedBytes + e.sizeBytes } : Slab).occupy e = p at ho ⊢
  obtain ⟨s, u⟩ := p
  have hs : s ∉ P.map Prod.fst := h.notMem_of_entryAt?_none ho.empty
  have hsP : ∀ e', (s, e') ∉ P := fun e' hp => hs (List.mem_map_of_mem hp)
  have hr := pushFront_relinked s { u with keys := u.keys.insert e.key s }
  have order : Ordered { u with keys := u.keys.insert e.key s } (P.map Prod.fst) :=
    (ho.order _ (h.order.congr rfl rfl rfl)).congr rfl rfl rfl
  have held : ∀ i, (Slab.pushFront s { u with keys := u.keys.insert e.key s }).entryAt? i =
      if s = i then some e else t.entryAt? i := by
    intro i
    rw [hr.held]
    exact ho.held i
  have keys : (Slab.pushFront s { u with keys := u.keys.insert e.key s }).keys =
      t.keys.insert e.key s := by
    rw [hr.keys]
    exact congrArg (·.insert e.key s) ho.keys
  refine ⟨s, ?_⟩
  exact {
    order := order.pushFront hs ho.lt
    held := by
      intro i e'
      rw [held, List.mem_cons]
      split
      · rename_i hi
        subst hi
        simp [hsP, eq_comm]
      · rename_i hi
        rw [h.held, or_iff_right (fun hp => hi (by cases hp; rfl))]
    distinct := List.nodup_cons.2 ⟨hk, h.distinct⟩
    keys := by
      rw [keys]
      exact h.keys_insert hk s
    count := by
      rw [keys]
      exact h.size_insert hk s
    freeNodup := by
      rw [hr.free]
      exact ho.freeNodup
    free := by
      intro i
      rw [hr.free, hr.size, hr.held]
      exact ho.free i
    used := by
      rw [hr.usedBytes, List.map_cons, List.sum_cons, ← h.used, Nat.add_comm]
      exact ho.usedBytes }

end Holds

end ResultCache.Slab
