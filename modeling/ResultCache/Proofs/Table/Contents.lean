/-
Where the entries of a cache come from. What an operation leaves in a cache was held before or is
the entry just added, and an invalidated index has none left; what a lookup gives out is held, and
is of the key, the index and the filters asked for.
-/
import ResultCache.Proofs.Table.Refinement

namespace ResultCache

namespace Shelf

/-! ## What is left -/

theorem mem_find {now : Instant} {index : Int64} {key : UInt64} {filterHashes : List UInt64}
    {m : Shelf} {e : Entry} (h : e ∈ (m.find now index key filterHashes).2.entries) :
    e ∈ m.entries := by
  unfold find at h
  split at h
  · exact h
  · rename_i found hfound
    split at h
    · exact (List.mem_filter.1 h).1
    · split at h
      · rcases List.mem_cons.1 h with rfl | h
        · -- what comes to the front was found on the list
          split at hfound
          · exact List.mem_of_find?_eq_some hfound
          · cases hfound
        · exact (List.mem_filter.1 h).1
      · exact h

theorem mem_add {a e : Entry} {m : Shelf} (h : e ∈ (m.add a).2.entries) :
    e ∈ m.entries ∨ (a = e ∧ (m.add a).1 = true) := by
  unfold add at h ⊢
  by_cases hok : m.config.isEnabled ∧ a.sizeBytes ≤ m.config.budget
  · rw [if_pos hok] at h ⊢
    rcases List.mem_cons.1 h with rfl | h
    · exact .inr ⟨rfl, rfl⟩
    · exact .inl (List.mem_filter.1 ((fitting_start _ _).subset h)).1
  · rw [if_neg hok] at h
    exact .inl h

theorem mem_configure {config : Config} {m : Shelf} {e : Entry}
    (h : e ∈ (m.configure config).entries) : e ∈ m.entries := by
  unfold configure at h
  dsimp only at h
  split at h
  · exact (fitting_start _ _).subset h
  · cases h

/-- An operation adds nothing but the entry it is given, and keeps nothing of an index it
invalidates. -/
theorem mem_serve {op : Operation} {m : Shelf} {e : Entry} (h : e ∈ (m.serve op).2.entries) :
    (e ∈ m.entries ∧ ∀ index, op = .invalidate index → e.index ≠ index) ∨
      (op = .add e ∧ (m.serve op).1 = .added true) := by
  cases op with
  | add a =>
    rcases mem_add h with h | ⟨rfl, hadded⟩
    · exact .inl ⟨h, by simp⟩
    · exact .inr ⟨rfl, congrArg Answer.added hadded⟩
  | find now index key filterHashes => exact .inl ⟨mem_find h, by simp⟩
  | invalidate index =>
    obtain ⟨hmem, hne⟩ := List.mem_filter.1 h
    refine .inl ⟨hmem, fun index' hop => ?_⟩
    cases hop
    exact of_decide_eq_true hne
  | configure config => exact .inl ⟨mem_configure h, by simp⟩
  | clear => cases h

theorem mem_serveOrStall {op : Operation} {m : Shelf} {e : Entry}
    (h : e ∈ (m.serveOrStall op).2.entries) :
    (e ∈ m.entries ∧ ∀ index, op = .invalidate index → e.index ≠ index) ∨
      (op = .add e ∧ (m.serveOrStall op).1 = .added true) := by
  unfold serveOrStall at h ⊢
  cases hs : stalls op m with
  | true =>
    rw [hs, if_pos rfl] at h
    refine .inl ⟨h, ?_⟩
    rintro index rfl
    cases hs
  | false =>
    rw [hs, if_neg Bool.false_ne_true] at h
    rw [if_neg Bool.false_ne_true]
    exact mem_serve h

theorem config_find (now : Instant) (index : Int64) (key : UInt64) (filterHashes : List UInt64)
    (m : Shelf) : (m.find now index key filterHashes).2.config = m.config := by
  unfold find
  split
  · rfl
  · split
    · rfl
    · split <;> rfl

theorem config_add (e : Entry) (m : Shelf) : (m.add e).2.config = m.config := by
  unfold add
  split <;> rfl

/-- Only a new configuration changes the one in force. -/
theorem config_serveOrStall {op : Operation} {m : Shelf} (h : ∀ config, op ≠ .configure config) :
    (m.serveOrStall op).2.config = m.config := by
  unfold serveOrStall
  split
  · rfl
  · cases op with
    | add e => exact config_add e m
    | find now index key filterHashes => exact config_find now index key filterHashes m
    | invalidate index => rfl
    | configure config => exact absurd rfl (h config)
    | clear => rfl

/-! ## What is given out -/

theorem of_held? {m : Shelf} {key : UInt64} {e : Entry} (h : m.held? key = some e) :
    e ∈ m.entries ∧ e.key = key :=
  ⟨List.mem_of_find?_eq_some h, by simpa using List.find?_some h⟩

theorem find_of_held {now : Instant} {index : Int64} {key : UInt64} {filterHashes : List UInt64}
    {m : Shelf} {e : Entry} (hheld : m.held? key = some e) (hon : m.config.isEnabled = true)
    (hage : outlived now m.config.ttlSecs e = false)
    (hmatch : e.index = index ∧ e.filterHashes = filterHashes) :
    m.find now index key filterHashes = (some e, { m with entries := e :: m.others key }) := by
  rw [find, if_pos hon, hheld]
  dsimp only
  rw [hage, if_neg Bool.false_ne_true, if_pos hmatch]

theorem find_hit {now : Instant} {index : Int64} {key : UInt64} {filterHashes : List UInt64}
    {m : Shelf} {e : Entry} (h : (m.find now index key filterHashes).1 = some e) :
    e ∈ m.entries ∧ e.key = key ∧ e.index = index ∧ e.filterHashes = filterHashes := by
  unfold find at h
  split at h
  · cases h
  · rename_i found hfound
    split at h
    · cases h
    · split at h
      · rename_i hmatch
        cases h
        split at hfound
        · obtain ⟨hmem, hkey⟩ := of_held? hfound
          exact ⟨hmem, hkey, hmatch⟩
        · cases hfound
      · cases h

end Shelf

namespace Cache.Mirrors

variable {c : Cache} {m : Shelf} {now : Instant} {index : Int64} {key : UInt64}
  {filterHashes : List UInt64}

/-- A lookup that comes to an answer does not stall, and answers as the list does. -/
theorem find_ok (h : c.Mirrors m) {found : Option Entry}
    (hf : (c.find now index key filterHashes).1 = .ok found) :
    Shelf.stalls (.find now index key filterHashes) m = false ∧
      (m.find now index key filterHashes).1 = found := by
  cases hs : Shelf.stalls (.find now index key filterHashes) m with
  | true =>
    rw [h.find_stalls hs] at hf
    cases hf
  | false =>
    rw [(h.find hs).1] at hf
    exact ⟨rfl, Except.ok.inj hf⟩

theorem find_hit (h : c.Mirrors m) {e : Entry}
    (hf : (c.find now index key filterHashes).1 = .ok (some e)) :
    e ∈ m.entries ∧ e.key = key ∧ e.index = index ∧ e.filterHashes = filterHashes :=
  Shelf.find_hit (h.find_ok hf).2

/-- A lookup comes to an answer if the lifetime in force can be expressed. -/
theorem find_answers (h : c.Mirrors m) (hspan : Shelf.endless m.config.ttlSecs = false) :
    ∃ found, (c.find now index key filterHashes).1 = .ok found := by
  have hs : Shelf.stalls (.find now index key filterHashes) m = false := by
    simp [Shelf.stalls, hspan]
  exact ⟨_, (h.find hs).1⟩

/-- An entry that is held and not too old answers the lookup it matches. -/
theorem find_of_held (h : c.Mirrors m) {e : Entry} (hheld : m.held? key = some e)
    (hon : m.config.isEnabled = true) (hspan : Shelf.endless m.config.ttlSecs = false)
    (hage : Shelf.outlived now m.config.ttlSecs e = false)
    (hmatch : e.index = index ∧ e.filterHashes = filterHashes) :
    (c.find now index key filterHashes).1 = .ok (some e) := by
  have hs : Shelf.stalls (.find now index key filterHashes) m = false := by
    simp [Shelf.stalls, hspan]
  rw [(h.find hs).1, Shelf.find_of_held hheld hon hage hmatch]

end Cache.Mirrors

end ResultCache
