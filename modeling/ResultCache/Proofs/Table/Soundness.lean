/-
The slab of a cache stays sound whatever is asked of the cache: its links lead once through all
slots that hold an entry, forward from the head and backward from the tail; the key map, the list of
empty slots and the byte count agree with what the slots hold; nothing is ever taken off the byte
count that was not charged before; and the bytes charged never exceed the budget.
-/
import ResultCache.Proofs.Table.Refinement

namespace ResultCache

/-- All parts of a slab tell the same story. -/
structure Slab.Sound (t : Slab) : Prop where
  forward : t.Walk Slot.next t.head t.linked
  backward : t.Walk Slot.prev t.tail t.linked.reverse
  once : t.linked.Nodup
  linked_iff : ∀ s, s ∈ t.linked ↔ ∃ e, t.entryAt? s = some e
  ends : t.tail = t.linked.getLast?
  keys_iff : ∀ k s, t.keys[k]? = some s ↔ ∃ e, t.entryAt? s = some e ∧ e.key = k
  distinct : (t.entries.map Entry.key).Nodup
  freeNodup : t.free.Nodup
  free_iff : ∀ s, s ∈ t.free ↔ s < t.slots.size ∧ t.entryAt? s = none
  used : t.usedBytes = totalSize t.entries
  /-- However many entries have been dropped, the next one dropped is still charged. -/
  covered : ∀ u u' s e, Removals t u → u.remove? s = some (e, u') → e.sizeBytes ≤ u.usedBytes

theorem Slab.Holds.sound {t : Slab} {P : List (Nat × Entry)} (h : t.Holds P) : t.Sound where
  forward := by rw [h.linked, h.order.head]; exact h.order.links.walk_next
  backward := by rw [h.linked, h.order.tail]; exact h.order.links.walk_prev
  once := by rw [h.linked]; exact h.slotsNodup
  linked_iff s := by
    rw [h.linked, List.mem_map]
    constructor
    · rintro ⟨⟨s, e⟩, hp, rfl⟩
      exact ⟨e, (h.held s e).2 hp⟩
    · rintro ⟨e, he⟩
      exact ⟨(s, e), (h.held s e).1 he, rfl⟩
  ends := by rw [h.linked, h.order.tail]
  keys_iff k s := by simp only [h.keys, h.held]
  distinct := by rw [h.entries, List.map_map]; exact h.distinct
  freeNodup := h.freeNodup
  free_iff := h.free
  used := by rw [h.entries, h.used_eq_totalSize]
  covered u u' s e hu hr := by
    obtain ⟨Q, hQ⟩ := h.removals hu
    exact hQ.size_le_of_remove? hr

/-! ## What an operation does to the slab -/

/-- Slots are emptied one after another, and then an entry within the budget may be put first; or
a slot comes to the front; or all slots are dropped at once. -/
inductive Slab.Change (budget : Nat) (t : Slab) : Slab → Prop where
  | drop {u : Slab} : Removals t u → Change budget t u
  | insert {u : Slab} {e : Entry} :
      Removals t u → e.sizeBytes ≤ budget → Change budget t (u.insert e)
  | promote (s : Nat) : Change budget t (t.promote s)
  | drain : Change budget t Slab.empty

theorem Slab.vacate_removals (key : UInt64) (t : Slab) : Removals t (t.vacate key).2 := by
  unfold vacate
  cases t.keys[key]? with
  | none => exact .refl t
  | some s =>
    dsimp only
    cases hr : t.remove? s with
    | none => exact .refl t
    | some p => exact .single hr

namespace Cache

theorem find_change (now : Instant) (index : Int64) (key : UInt64) (filterHashes : List UInt64)
    (c : Cache) :
    c.slab.Change c.config.budget (c.find now index key filterHashes).2.slab := by
  cases hf : (if c.config.isEnabled then c.slab.find? key else none) with
  | none =>
    rw [find_absent hf]
    exact .drop (.refl _)
  | some p =>
    obtain ⟨s, e⟩ := p
    cases hexp : e.expired now c.config.ttlSecs with
    | error f =>
      rw [find_fault hf hexp]
      exact .drop (.refl _)
    | ok old =>
      cases old with
      | true =>
        have hfind : c.slab.find? key = some (s, e) := by
          split at hf
          · exact hf
          · cases hf
        -- the slot found holds an entry, so it can be emptied
        obtain ⟨s', -, hs'⟩ := Option.bind_eq_some_iff.1 hfind
        obtain ⟨e', he', heq⟩ := Option.bind_eq_some_iff.1 hs'
        cases heq
        obtain ⟨t', hr⟩ : ∃ t', c.slab.remove? s = some (e, t') := by
          unfold Slab.remove?
          rw [he']
          exact ⟨_, rfl⟩
        rw [find_expired hf hexp hr]
        exact .drop (.single hr)
      | false =>
        by_cases hm : e.index = index ∧ e.filterHashes = filterHashes
        · rw [find_hit hf hexp hm]
          exact .promote s
        · rw [find_other hf hexp hm]
          exact .drop (.refl _)

theorem add_change (e : Entry) (c : Cache) : c.slab.Change c.config.budget (c.add e).2.slab := by
  by_cases hok : c.config.isEnabled = true ∧ e.sizeBytes ≤ c.config.budget
  · rw [add_stored hok]
    refine .insert ?_ hok.2
    exact (Slab.vacate_removals e.key c.slab).trans (Slab.trimFrom_removals _ _ _)
  · rw [add_refused hok]
    exact .drop (.refl _)

theorem configure_change (config : Config) (c : Cache) :
    c.slab.Change c.config.budget (c.configure config).slab := by
  unfold configure
  cases config.isEnabled with
  | true => exact .drop (Slab.trimFrom_removals _ _ _)
  | false => exact .drain

theorem serve_change (op : Operation) (c : Cache) :
    c.slab.Change c.config.budget (c.serve op).2.slab := by
  cases op with
  | add e => exact c.add_change e
  | find now index key filterHashes => exact c.find_change now index key filterHashes
  | invalidate index => exact .drop (Slab.removeAll_removals _ _)
  | configure config => exact c.configure_change config
  | clear => exact .drain

end Cache

/-! ## Histories -/

theorem Cache.Mirrors.used_le {c : Cache} {m : Shelf} (h : c.Mirrors m) :
    c.slab.usedBytes ≤ c.config.budget := by
  obtain ⟨P, hP, hm⟩ := h.slab
  rw [hP.used_eq_totalSize, hm, h.config]
  exact h.fits

/-- Nothing is charged to a cache that is turned off, and so it holds nothing. -/
theorem Cache.Mirrors.entries_eq_nil {c : Cache} {m : Shelf} (h : c.Mirrors m)
    (hoff : c.config.isEnabled = false) : c.entries = [] := by
  have hbudget : c.config.budget = 0 := by
    have hle : c.config.maxBytes ≤ 0 := by
      simpa [Config.isEnabled, Int64.not_lt] using hoff
    have := Int64.le_iff_toInt_le.1 hle
    unfold Config.budget
    simp only [Int64.toInt_zero] at this
    omega
  have hzero : totalSize m.entries = 0 := by
    have := h.fits
    rw [← h.config, hbudget] at this
    omega
  rw [h.shows.entries]
  exact eq_nil_of_totalSize_eq_zero hzero

theorem Cache.Mirrors.isEnabled_of_mem {c : Cache} {m : Shelf} {e : Entry} (h : c.Mirrors m)
    (he : e ∈ m.entries) : m.config.isEnabled = true := by
  by_contra hoff
  rw [Bool.not_eq_true, ← h.config] at hoff
  rw [← h.shows.entries, h.entries_eq_nil hoff] at he
  cases he

/-- After every history the slab is sound and within the budget of the configuration in force, and
a cache turned off holds nothing; whatever comes next, the slab changes by removals that are covered,
and an entry is stored only if it fits into the budget. -/
theorem Cache.run_sound (config : Config) (ops : List Operation) :
    ((create config).run ops).2.slab.Sound ∧
    ((create config).run ops).2.slab.usedBytes ≤ ((create config).run ops).2.config.budget ∧
    (((create config).run ops).2.config.isEnabled = false → ((create config).run ops).2.entries = []) ∧
    (∀ op, ((create config).run ops).2.slab.Change ((create config).run ops).2.config.budget
      (((create config).run ops).2.serve op).2.slab) ∧
    (∀ e, (((create config).run ops).2.add e).1 = true →
      e.sizeBytes ≤ ((create config).run ops).2.config.budget) := by
  have h := (run_mirrors config ops).2
  obtain ⟨P, hP, -⟩ := h.slab
  refine ⟨hP.sound, h.used_le, h.entries_eq_nil, fun op => serve_change op _, fun e he => ?_⟩
  by_contra hlt
  rw [add_refused fun hok => hlt hok.2] at he
  cases he

end ResultCache
