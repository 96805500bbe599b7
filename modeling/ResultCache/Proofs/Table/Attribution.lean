/-
Where a hit comes from. Whatever a cache holds was stored by the last addition under its key that
was accepted, and every operation since has spared it (`Spares`): no newer entry took its key, its
index was not invalidated, the cache was neither cleared nor turned off, and no lookup of its key
found it too old. A hit is such an entry, of the index and the filters asked for and within the
lifetime in force.
-/
import ResultCache.Proofs.Table.Contents
import ResultCache.Proofs.Table.Soundness

namespace ResultCache

namespace Shelf

/-! ## What an operation does not leave -/

variable {now : Instant} {index : Int64} {key : UInt64} {filterHashes : List UInt64} {m : Shelf}
  {a e : Entry}

/-- An entry that is stored is the only one left of its key. -/
theorem eq_of_mem_add (h : e ∈ (m.add a).2.entries) (hadded : (m.add a).1 = true)
    (hk : a.key = e.key) : a = e := by
  unfold add at h hadded
  split at h
  · rcases List.mem_cons.1 h with rfl | h
    · rfl
    · have hne := (List.mem_filter.1 ((fitting_start _ _).subset h)).2
      simp [hk] at hne
  · rw [if_neg ‹_›] at hadded
    cases hadded

/-- A lookup does not leave the entry it finds too old. -/
theorem not_outlived_of_mem_find (hon : m.config.isEnabled = true) (hheld : m.held? e.key = some e)
    (h : e ∈ (m.find now index e.key filterHashes).2.entries) :
    outlived now m.config.ttlSecs e = false := by
  unfold find at h
  rw [if_pos hon, hheld] at h
  dsimp only at h
  rw [Bool.eq_false_iff]
  intro hout
  rw [if_pos hout] at h
  have hne := (List.mem_filter.1 h).2
  simp at hne

theorem outlived_eq_false_iff {secs : Int64} :
    outlived now secs e = false ↔ now - e.builtAt ≤ secs.toInt * 1000000000 := by
  unfold outlived
  rw [decide_eq_false_iff_not, Int.not_lt]

theorem find_hit_not_outlived (h : (m.find now index key filterHashes).1 = some e) :
    outlived now m.config.ttlSecs e = false := by
  unfold find at h
  split at h
  · cases h
  · split at h
    · cases h
    · rename_i hout
      split at h
      · cases h
        simpa using hout
      · cases h

end Shelf

namespace Cache

/-! ## Sparing an entry -/

/-- The operation, done to a cache that holds the entry, is no reason for it to be gone or to be
another one: only making room may still drop it. -/
def Spares (e : Entry) (c : Cache) : Operation → Prop
  | .add e' => e'.key = e.key → (c.add e').1 = false
  | .find now _ key _ => key = e.key → e.expired now c.config.ttlSecs ≠ .ok true
  | .invalidate index => index ≠ e.index
  | .configure config => config.isEnabled = true
  | .clear => False

/-- All operations of a history spare the entry. -/
def SparedBy (e : Entry) : List Operation → Cache → Prop
  | [], _ => True
  | op :: ops, c => c.Spares e op ∧ SparedBy e ops (c.serve op).2

/-- The history has an accepted addition of the entry, and everything after it spares the entry. -/
def LastStored (e : Entry) (ops : List Operation) (c : Cache) : Prop :=
  ∃ before after, ops = before ++ .add e :: after ∧ ((c.run before).2.add e).1 = true ∧
    ((c.run before).2.add e).2.SparedBy e after

namespace Mirrors

variable {c : Cache} {m : Shelf} {now : Instant} {index : Int64} {key : UInt64}
  {filterHashes : List UInt64} {e : Entry}

theorem held?_of_mem (h : c.Mirrors m) (he : e ∈ m.entries) : m.held? e.key = some e := by
  obtain ⟨P, hP, hm⟩ := h.slab
  rw [← hm] at he
  obtain ⟨⟨s, e⟩, hp, rfl⟩ := List.mem_map.1 he
  rw [hP.held?_eq hm, hP.find?_eq_some_iff.2 ⟨hp, rfl⟩, Option.map_some]

/-- What is held after an operation was held before and has been spared, or has just been stored. -/
theorem spares_of_mem (h : c.Mirrors m) {op : Operation}
    (he : e ∈ (m.serveOrStall op).2.entries) :
    (e ∈ m.entries ∧ c.Spares e op) ∨ (op = .add e ∧ (c.add e).1 = true) := by
  have hanswer := (h.serve op).1
  rcases Shelf.mem_serveOrStall he with ⟨hmem, hindex⟩ | ⟨rfl, hadded⟩
  · cases op with
    | add a =>
      cases hadd : (c.add a).1 with
      | false => exact .inl ⟨hmem, fun _ => hadd⟩
      | true =>
        by_cases hk : a.key = e.key
        · -- of this key there is only the entry just stored
          obtain rfl := Shelf.eq_of_mem_add he ((h.add a).1.symm.trans hadd) hk
          exact .inr ⟨rfl, hadd⟩
        · exact .inl ⟨hmem, fun hk' => absurd hk' hk⟩
    | find now index key filterHashes =>
      refine .inl ⟨hmem, ?_⟩
      rintro rfl hexp
      have hend : Shelf.endless m.config.ttlSecs = false := by
        rw [Bool.eq_false_iff]
        intro hend
        rw [h.config, Entry.expired_of_endless hend] at hexp
        cases hexp
      have hflows : Shelf.stalls (.find now index e.key filterHashes) m = false := by
        simp [Shelf.stalls, hend]
      have hfresh : Shelf.outlived now m.config.ttlSecs e = false := by
        apply Shelf.not_outlived_of_mem_find (h.isEnabled_of_mem hmem) (h.held?_of_mem hmem)
        rw [Shelf.serveOrStall, hflows, if_neg Bool.false_ne_true] at he
        exact he
      rw [h.config, Entry.expired_eq_outlived hend, hfresh] at hexp
      cases hexp
    | invalidate index => exact .inl ⟨hmem, fun hi => hindex index rfl hi.symm⟩
    | configure config =>
      refine .inl ⟨hmem, ?_⟩
      -- turning the cache off leaves nothing
      by_contra hoff
      have hnil : ((m.configure config).entries) = [] := if_neg hoff
      rw [show (m.serveOrStall (.configure config)).2 = m.configure config from rfl, hnil] at he
      cases he
    | clear => cases he
  · refine .inr ⟨rfl, ?_⟩
    rw [← hanswer] at hadded
    exact Answer.added.inj hadded

/-- What is held after a history was held before it and has been spared by all of it, or was stored
by it. -/
theorem lastStored (ops : List Operation) : ∀ {c : Cache} {m : Shelf}, c.Mirrors m →
    ∀ e ∈ (c.run ops).2.entries, (e ∈ c.entries ∧ c.SparedBy e ops) ∨ c.LastStored e ops := by
  induction ops with
  | nil => exact fun _ e he => .inl ⟨he, trivial⟩
  | cons op ops ih =>
    intro c m h e he
    have h' := (h.serve op).2
    rcases ih h' e he with ⟨hmem, hspared⟩ | ⟨before, after, rfl, hadded, hspared⟩
    · rw [h'.shows.entries] at hmem
      rcases h.spares_of_mem hmem with ⟨hmem, hspares⟩ | ⟨rfl, hadded⟩
      · rw [← h.shows.entries] at hmem
        exact .inl ⟨hmem, hspares, hspared⟩
      · exact .inr ⟨[], ops, rfl, hadded, hspared⟩
    · exact .inr ⟨op :: before, after, rfl, hadded, hspared⟩

theorem find_hit_age (h : c.Mirrors m)
    (hf : (c.find now index key filterHashes).1 = .ok (some e)) :
    now - e.builtAt ≤ c.config.ttlSecs.toInt * 1000000000 := by
  rw [← Shelf.outlived_eq_false_iff, h.config]
  exact Shelf.find_hit_not_outlived (h.find_ok hf).2

end Mirrors

/-! ## Hits -/

variable {config : Config} {ops : List Operation} {now : Instant} {index : Int64} {key : UInt64}
  {filterHashes : List UInt64} {e : Entry}

/-- A hit after any history is the entry last stored under the key, spared ever since, of the index
and with the filters asked for, and no older than the lifetime in force allows. -/
theorem hit_lastStored
    (h : (((create config).run ops).2.find now index key filterHashes).1 = .ok (some e)) :
    (create config).LastStored e ops ∧ e.key = key ∧ e.index = index ∧
      e.filterHashes = filterHashes ∧
      now - e.builtAt ≤ ((create config).run ops).2.config.ttlSecs.toInt * 1000000000 := by
  have hm := (run_mirrors config ops).2
  obtain ⟨hmem, hkey, hindex, hfilters⟩ := hm.find_hit h
  rw [← hm.shows.entries] at hmem
  refine ⟨?_, hkey, hindex, hfilters, hm.find_hit_age h⟩
  rcases (create_mirrors config).lastStored ops e hmem with ⟨hnone, -⟩ | hstored
  · -- a new cache holds nothing
    rw [(create_mirrors config).shows.entries] at hnone
    cases hnone
  · exact hstored

/-- The entry outlasts a lookup with other filters and an entry of its key too large for the budget,
and answers within the lifetime set last. -/
theorem hit_after_refused_replacement :
    let e : Entry :=
      { index := 1, builtAt := 0, elapsedMs := 10, filterHashes := [3], key := 7, stream := {} }
    let ops : List Operation :=
      [.add e, .find 5 1 7 [4], .add { e with filterHashes := List.replicate 30 3 },
        .configure ⟨250, 0, 2⟩]
    (((create ⟨300, 0, 1⟩).run ops).2.find 1500000000 1 7 [3]).1 = .ok (some e) ∧
      (create ⟨300, 0, 1⟩).LastStored e ops := by
  intro e ops
  have hm := (run_mirrors ⟨300, 0, 1⟩ ops).2
  have hhit : (((create ⟨300, 0, 1⟩).run ops).2.find 1500000000 1 7 [3]).1 = .ok (some e) :=
    hm.find_of_held (by decide) (by decide) (by decide) (by decide) ⟨rfl, rfl⟩
  exact ⟨hhit, (hit_lastStored hhit).1⟩

end Cache

end ResultCache
