/-
Slots are never lost. Every slot either holds an entry or is on the list of empty slots, so there
are as many slots as both together (`Slab.Holds.slots_size`). An operation that drops entries puts
their slots on that list; storing an entry takes a slot off it and makes a new one only where it is
empty, that is, where every slot is in use. So a slab is as large as it had to be at its fullest
since it was last drained.
-/
import Mathlib.Order.Bounds.Basic
import ResultCache.Proofs.Table.Counting
import ResultCache.Proofs.Table.Soundness

namespace ResultCache

namespace Slab

variable {t t' u : Slab} {P : List (Nat × Entry)} {s : Nat} {e : Entry}

/-! ## Slots in use and empty slots -/

theorem Holds.entries_length (h : t.Holds P) : t.entries.length = P.length := by
  rw [h.entries, List.length_map]

theorem Holds.slots_size (h : t.Holds P) : t.slots.size = P.length + t.free.length := by
  have hperm : (P.map Prod.fst ++ t.free).Perm (List.range t.slots.size) := by
    refine (List.perm_ext_iff_of_nodup ?_ List.nodup_range).2 fun s => ?_
    · refine List.nodup_append.2 ⟨h.slotsNodup, h.freeNodup, ?_⟩
      rintro s hs _ hfree rfl
      exact h.notMem_of_entryAt?_none ((h.free s).1 hfree).2 hs
    · rw [List.mem_append, List.mem_range, h.free]
      constructor
      · rintro (hs | ⟨hlt, -⟩)
        · exact h.order.links.lt_size s hs
        · exact hlt
      · intro hlt
        cases he : t.entryAt? s with
        | none => exact .inr ⟨hlt, rfl⟩
        | some e => exact .inl (List.mem_map_of_mem ((h.held s e).1 he))
  have hlength := hperm.length_eq
  rw [List.length_append, List.length_map, List.length_range] at hlength
  exact hlength.symm

/-- No slot is made or given up when one is emptied; it joins the empty ones. -/
theorem remove?_slots (h : t.remove? s = some (e, t')) :
    t'.slots.size = t.slots.size ∧ t'.free = s :: t.free := by
  have he : t.entryAt? s = some e := by
    unfold remove? at h
    cases he : t.entryAt? s with
    | none => rw [he] at h; cases h
    | some e' => rw [he] at h; cases h; rfl
  rw [remove?_eq he] at h
  cases h
  exact ⟨(detach_relinked s (t.setEntry s none)).size.trans Array.size_modify, rfl⟩

theorem Removals.slots (h : Removals t u) : u.slots.size = t.slots.size ∧ t.free <:+ u.free := by
  induction h with
  | refl => exact ⟨rfl, List.suffix_refl _⟩
  | step hr _ ih =>
    obtain ⟨hsize, hfree⟩ := remove?_slots hr
    rw [hsize, hfree] at ih
    exact ⟨ih.1, (List.suffix_cons _ _).trans ih.2⟩

theorem occupy_slots (e : Entry) (t : Slab) :
    (t.occupy e).2.slots.size = (if t.free = [] then t.slots.size + 1 else t.slots.size) ∧
      (t.occupy e).2.free = t.free.tail := by
  cases hf : t.free with
  | nil =>
    rw [Holds.occupy_nil hf, if_pos rfl]
    exact ⟨Array.size_push _, hf⟩
  | cons s rest =>
    rw [Holds.occupy_cons hf, if_neg (List.cons_ne_nil _ _)]
    exact ⟨Array.size_modify, rfl⟩

/-- An entry goes into an empty slot as long as there is one. -/
theorem insert_slots (e : Entry) (t : Slab) :
    (t.insert e).slots.size = (if t.free = [] then t.slots.size + 1 else t.slots.size) ∧
      (t.insert e).free = t.free.tail := by
  -- the entry is charged before a slot is taken for it
  have ho := occupy_slots e { t with usedBytes := t.usedBytes + e.sizeBytes }
  unfold insert
  dsimp only
  generalize ({ t with usedBytes := t.usedBytes + e.sizeBytes } : Slab).occupy e = p at ho ⊢
  have hr := pushFront_relinked p.1 { p.2 with keys := p.2.keys.insert e.key p.1 }
  exact ⟨hr.size.trans ho.1, hr.free.trans ho.2⟩

end Slab

/-! ## What an operation does to the slots -/

/-- Whether an operation gives up all slots. -/
def Operation.drains : Operation → Bool
  | .configure config => !config.isEnabled
  | .clear => true
  | _ => false

namespace Cache

variable {c : Cache} {m : Shelf}

theorem Mirrors.length_le_slots (h : c.Mirrors m) : c.entries.length ≤ c.slab.slots.size := by
  obtain ⟨P, hP, -⟩ := h.slab
  show c.slab.entries.length ≤ c.slab.slots.size
  rw [hP.entries_length, hP.slots_size]
  exact Nat.le_add_right _ _

theorem find_slots (now : Instant) (index : Int64) (key : UInt64) (filterHashes : List UInt64)
    (c : Cache) :
    (c.find now index key filterHashes).2.slab.slots.size = c.slab.slots.size := by
  rcases find_cases now index key filterHashes c with h | ⟨f, h⟩ | ⟨s, e, slab, hr, h⟩ | ⟨s, e, h⟩
  · rw [h]
    rfl
  · rw [h]
  · rw [h]
    exact (Slab.remove?_slots hr).1
  · rw [h]
    exact (Slab.promote_relinked s c.slab).size

/-- Storing an entry makes a slot only where all slots are in use, and then they all are again. -/
theorem Mirrors.add_slots (h : c.Mirrors m) (e : Entry) :
    (c.add e).2.slab.slots.size = c.slab.slots.size ∨
      (c.slab.free = [] ∧ (c.add e).2.slab.slots.size = c.slab.slots.size + 1 ∧
        (c.add e).2.entries.length = c.slab.slots.size + 1) := by
  by_cases hok : c.config.isEnabled = true ∧ e.sizeBytes ≤ c.config.budget
  · obtain ⟨P', hP', -⟩ := (h.add e).2.slab
    rw [add_stored hok] at hP' ⊢
    -- what is dropped first only adds to the empty slots
    obtain ⟨hsize, hfree⟩ := ((Slab.vacate_removals e.key c.slab).trans
      (Slab.trimFrom_removals (c.config.budget - e.sizeBytes) 0 _)).slots
    have hinsert := Slab.insert_slots e
      ((c.slab.vacate e.key).2.trim (c.config.budget - e.sizeBytes)).2
    unfold Slab.trim at hinsert hP' ⊢
    generalize ((c.slab.vacate e.key).2.trimFrom (c.config.budget - e.sizeBytes) 0).2 = u at *
    replace hP' : (u.insert e).Holds P' := hP'
    by_cases hempty : u.free = []
    · rw [if_pos hempty, hsize, hempty] at hinsert
      refine .inr ⟨List.suffix_nil.1 (hempty ▸ hfree), hinsert.1, ?_⟩
      -- no slot is left empty, so the entries are as many as the slots
      show (u.insert e).entries.length = c.slab.slots.size + 1
      rw [hP'.entries_length, ← hinsert.1]
      exact (hP'.slots_size.trans (by rw [hinsert.2]; rfl)).symm
    · rw [if_neg hempty, hsize] at hinsert
      exact .inl hinsert.1
  · rw [add_refused hok]
    exact .inl rfl

/-- No other operation makes a slot. -/
theorem slots_of_not_add {op : Operation} (hop : op.drains = false)
    (hadd : ∀ e, op ≠ .add e) (c : Cache) :
    (c.serve op).2.slab.slots.size = c.slab.slots.size := by
  cases op with
  | add e => exact absurd rfl (hadd e)
  | find now index key filterHashes => exact c.find_slots now index key filterHashes
  | invalidate index => exact (Slab.removeAll_removals _ _).slots.1
  | configure config =>
    have hon : config.isEnabled = true := by simpa [Operation.drains] using hop
    show (c.configure config).slab.slots.size = c.slab.slots.size
    unfold configure
    rw [hon]
    exact (Slab.trimFrom_removals _ _ _).slots.1
  | clear => cases hop

theorem slab_of_drains {op : Operation} (hop : op.drains = true) (c : Cache) :
    (c.serve op).2.slab = Slab.empty := by
  cases op with
  | configure config =>
    have hoff : config.isEnabled = false := by simpa [Operation.drains] using hop
    show (c.configure config).slab = Slab.empty
    unfold configure
    rw [hoff]
    rfl
  | clear => rfl
  | _ => cases hop

/-- A slab that is not drained grows to the entries it has to hold, and does not shrink. -/
theorem Mirrors.serve_slots (h : c.Mirrors m) {op : Operation} (hop : op.drains = false) :
    (c.serve op).2.slab.slots.size =
      max c.slab.slots.size (c.serve op).2.entries.length := by
  have hle := (h.serve op).2.length_le_slots
  have hstay : (c.serve op).2.slab.slots.size = c.slab.slots.size →
      (c.serve op).2.slab.slots.size = max c.slab.slots.size (c.serve op).2.entries.length := by
    intro hsize
    omega
  by_cases hadd : ∃ e, op = .add e
  · obtain ⟨e, rfl⟩ := hadd
    rcases h.add_slots e with hsize | ⟨-, hsize, hlength⟩
    · exact hstay hsize
    · show (c.add e).2.slab.slots.size = max _ (c.add e).2.entries.length
      omega
  · exact hstay (slots_of_not_add hop (fun e he => hadd ⟨e, he⟩) c)

/-- Where a slab grows, no empty slot was left. -/
theorem Mirrors.free_of_slots_lt (h : c.Mirrors m) {op : Operation}
    (hlt : c.slab.slots.size < (c.serve op).2.slab.slots.size) : c.slab.free = [] := by
  cases hop : op.drains with
  | true =>
    rw [slab_of_drains hop] at hlt
    cases hlt
  | false =>
    by_cases hadd : ∃ e, op = .add e
    · obtain ⟨e, rfl⟩ := hadd
      rcases h.add_slots e with hsize | ⟨hfree, -⟩
      · exact absurd hsize (Nat.ne_of_gt hlt)
      · exact hfree
    · exact absurd (slots_of_not_add hop (fun e he => hadd ⟨e, he⟩) c) (Nat.ne_of_gt hlt)

/-! ## Histories -/

theorem run_concat (ops : List Operation) (op : Operation) : ∀ c : Cache,
    (c.run (ops ++ [op])).2 = ((c.run ops).2.serve op).2 := by
  induction ops with
  | nil => exact fun _ => rfl
  | cons _ ops ih => exact fun _ => ih _

/-- How many entries a new cache held at the moments of a history since it was last drained: when it
was created, if it was never drained, or as that operation ended, and after every operation since. -/
def heldSinceDrained (config : Config) (ops : List Operation) : Set Nat :=
  { n | ∃ before after, ops = before ++ after ∧ (∀ op ∈ after, op.drains = false) ∧
    ((create config).run before).2.entries.length = n }

theorem heldSinceDrained_concat {config : Config} {ops : List Operation} {op : Operation} (n : Nat) :
    n ∈ heldSinceDrained config (ops ++ [op]) ↔
      (n ∈ heldSinceDrained config ops ∧ op.drains = false) ∨
        n = ((create config).run (ops ++ [op])).2.entries.length := by
  constructor
  · rintro ⟨before, after, hops, hafter, rfl⟩
    rcases List.eq_nil_or_concat after with rfl | ⟨after, last, rfl⟩
    · rw [List.append_nil] at hops
      rw [hops]
      exact .inr rfl
    · rw [List.concat_eq_append, ← List.append_assoc] at hops
      obtain ⟨rfl, hlast⟩ := List.append_inj' hops rfl
      cases hlast
      exact .inl ⟨⟨before, after, rfl, fun o ho => hafter o (by simp [ho]), rfl⟩,
        hafter op (by simp)⟩
  · rintro (⟨⟨before, after, rfl, hafter, rfl⟩, hop⟩ | rfl)
    · refine ⟨before, after ++ [op], List.append_assoc .., ?_, rfl⟩
      intro o ho
      rcases List.mem_append.1 ho with ho | ho
      · exact hafter o ho
      · rw [List.mem_singleton.1 ho]
        exact hop
    · exact ⟨_, [], (List.append_nil _).symm, by simp, rfl⟩

/-- After every history a slab has as many slots as the most entries it held since it was created
or last drained, and whatever comes next, it grows only where no empty slot is left. -/
theorem slots_eq_most_held (config : Config) (ops : List Operation) :
    IsGreatest (heldSinceDrained config ops) ((create config).run ops).2.slab.slots.size ∧
    ∀ op, ((create config).run ops).2.slab.slots.size <
        (((create config).run ops).2.serve op).2.slab.slots.size →
      ((create config).run ops).2.slab.free = [] := by
  refine ⟨?_, fun op hlt => (run_mirrors config ops).2.free_of_slots_lt hlt⟩
  induction ops using List.reverseRecOn with
  | nil =>
    refine ⟨⟨[], [], rfl, by simp, rfl⟩, ?_⟩
    rintro n ⟨before, after, hops, -, rfl⟩
    obtain ⟨rfl, -⟩ := List.append_eq_nil_iff.1 hops.symm
    exact Nat.le_refl _
  | append_singleton ops op ih =>
    have hlast := run_concat ops op (create config)
    cases hop : op.drains with
    | true =>
      -- nothing from before the operation counts any more
      have hempty : ((create config).run (ops ++ [op])).2.slab = Slab.empty := by
        rw [hlast, slab_of_drains hop]
      refine ⟨(heldSinceDrained_concat _).2 (.inr ?_), fun n hn => ?_⟩
      · rw [entries, hempty]
        rfl
      · rcases (heldSinceDrained_concat n).1 hn with ⟨-, hkeep⟩ | rfl
        · cases hop.symm.trans hkeep
        · rw [entries, hempty]
          exact Nat.le_refl _
    | false =>
      have hunion : heldSinceDrained config (ops ++ [op]) = heldSinceDrained config ops ∪
          {((create config).run (ops ++ [op])).2.entries.length} := by
        ext n
        rw [heldSinceDrained_concat, Set.mem_union, Set.mem_singleton_iff, and_iff_left hop]
      rw [hunion, hlast, (run_mirrors config ops).2.serve_slots hop, ← hlast]
      exact ih.union isGreatest_singleton

end Cache

end ResultCache
