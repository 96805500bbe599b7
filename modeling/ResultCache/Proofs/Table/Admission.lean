/-
Offering an entry to a cache. Whether it is taken depends on the entry and the configuration in force
alone (`Config.Takes`), and `Shelf.offer` is what becomes of the list; an entry that is taken is held
under the fingerprint of its query and answers it.
-/
import ResultCache.Proofs.Table.Contents
import ResultCache.Ranker.Recorder

namespace ResultCache

/-- An entry is taken by a cache that is turned on, if its query took long enough and it fits into
the budget. -/
def Config.Takes (e : Entry) (config : Config) : Prop :=
  config.isEnabled = true ∧ config.thresholdMs ≤ e.elapsedMs ∧ e.sizeBytes ≤ config.budget

instance (e : Entry) (config : Config) : Decidable (config.Takes e) :=
  inferInstanceAs (Decidable (_ ∧ _ ∧ _))

namespace Shelf

variable {e e' : Entry} {m : Shelf}

theorem add_iff : (m.add e).1 = true ↔ m.config.isEnabled = true ∧ e.sizeBytes ≤ m.config.budget := by
  unfold add
  split <;> simp_all

theorem add_refused (h : (m.add e).1 = false) : (m.add e).2 = m := by
  unfold add at h ⊢
  split at h
  · cases h
  · rw [if_neg ‹_›]

theorem held?_add (h : (m.add e).1 = true) : (m.add e).2.held? e.key = some e := by
  unfold add
  rw [if_pos (add_iff.1 h)]
  simp [held?]

/-- Adds an entry if it is to be taken. -/
def offer (e : Entry) (m : Shelf) : Bool × Shelf := if m.config.Takes e then m.add e else (false, m)

theorem offer_taken (h : m.config.Takes e) : m.offer e = m.add e := if_pos h

theorem offer_refused (h : ¬ m.config.Takes e) : m.offer e = (false, m) := if_neg h

theorem offer_iff : (m.offer e).1 = true ↔ m.config.Takes e := by
  by_cases h : m.config.Takes e
  · rw [offer_taken h, add_iff]
    exact ⟨fun _ => h, fun h => ⟨h.1, h.2.2⟩⟩
  · rw [offer_refused h]
    simp [h]

theorem mem_offer (h : e' ∈ (m.offer e).2.entries) :
    e' ∈ m.entries ∨ (e = e' ∧ m.config.Takes e) := by
  by_cases ht : m.config.Takes e
  · rw [offer_taken ht] at h
    exact (mem_add h).imp_right fun h => ⟨h.1, ht⟩
  · rw [offer_refused ht] at h
    exact .inl h

theorem config_offer (e : Entry) (m : Shelf) : (m.offer e).2.config = m.config := by
  by_cases ht : m.config.Takes e
  · rw [offer_taken ht, config_add]
  · rw [offer_refused ht]

end Shelf

namespace Cache

variable (hash : Hasher)

/-- The entry of a query as it is filed. -/
def filed (query : Query) (schema : Schema) (e : Entry) : Entry :=
  e.withFingerprint (Fingerprint.ofQuery hash e.index query (schema.signature hash))

theorem filed_unpack (query : Query) (schema : Schema) (e : Entry) :
    (filed hash query schema e).unpack = e.unpack := rfl

namespace Mirrors

variable {c : Cache} {m : Shelf}

theorem peek?_eq (h : c.Mirrors m) (key : UInt64) : c.peek? key = m.held? key := by
  obtain ⟨P, hP, hm⟩ := h.slab
  exact (hP.held?_eq hm key).symm

/-- Offering an entry to a cache is offering it, filed, to its list. -/
theorem store (h : c.Mirrors m) (query : Query) (schema : Schema) (e : Entry) :
    (c.store hash query e schema).1 = (m.offer (filed hash query schema e)).1 ∧
      (c.store hash query e schema).2.Mirrors (m.offer (filed hash query schema e)).2 := by
  unfold Cache.store
  cases hs : c.policy.shouldStore e.elapsedMs with
  | false =>
    have hrefused : ¬ m.config.Takes (filed hash query schema e) := by
      rintro ⟨hen, hms, -⟩
      have hms : m.config.thresholdMs ≤ e.elapsedMs := hms
      simp [Cache.policy, Policy.shouldStore, Policy.ofConfig, h.config, hen, hms] at hs
    rw [if_neg Bool.false_ne_true, Shelf.offer_refused hrefused]
    exact ⟨rfl, h⟩
  | true =>
    have hslow : m.config.isEnabled = true ∧ m.config.thresholdMs ≤ e.elapsedMs := by
      simpa [Cache.policy, Policy.shouldStore, Policy.ofConfig, h.config] using hs
    rw [if_pos rfl]
    obtain ⟨hadded, hm⟩ := h.add (filed hash query schema e)
    by_cases ht : m.config.Takes (filed hash query schema e)
    · rw [Shelf.offer_taken ht]
      exact ⟨hadded, hm⟩
    · -- an entry of a slow query is refused for its size
      have hrefused : (m.add (filed hash query schema e)).1 = false := by
        rw [Bool.eq_false_iff]
        exact fun hadd => ht ⟨hslow.1, hslow.2, (Shelf.add_iff.1 hadd).2⟩
      rw [Shelf.add_refused hrefused] at hm
      rw [Shelf.offer_refused ht]
      exact ⟨hadded.trans hrefused, hm⟩

/-- An entry that is taken is held; one that is not changes nothing that is. -/
theorem store_outcome (h : c.Mirrors m) (query : Query) (schema : Schema) (e : Entry) :
    let entry := filed hash query schema e
    (c.store hash query e schema).1 = decide (c.config.Takes entry) ∧
      (c.config.Takes entry → (c.store hash query e schema).2.peek? entry.key = some entry) ∧
      (¬ c.config.Takes entry → (c.store hash query e schema).2.entries = c.entries) := by
  intro entry
  obtain ⟨hanswer, hm⟩ := h.store hash query schema e
  rw [h.config, hm.peek?_eq, hm.shows.entries, h.shows.entries]
  refine ⟨?_, fun ht => ?_, fun ht => ?_⟩
  · rw [hanswer, Bool.eq_iff_iff, Shelf.offer_iff, decide_eq_true_iff]
  · rw [Shelf.offer_taken ht]
    exact Shelf.held?_add (Shelf.add_iff.2 ⟨ht.1, ht.2.2⟩)
  · rw [Shelf.offer_refused ht]

/-- An entry just stored answers its query, unless it is too old already. -/
theorem find_stored (h : c.Mirrors m) (now : Instant) {query : Query} {schema : Schema} {e : Entry}
    (ht : c.config.Takes (filed hash query schema e)) (hspan : Shelf.endless c.config.ttlSecs = false)
    (hage : Shelf.outlived now c.config.ttlSecs e = false) :
    ((c.store hash query e schema).2.find now e.index (filed hash query schema e).key
      (filed hash query schema e).filterHashes).1 = .ok (some (filed hash query schema e)) := by
  rw [h.config] at ht hspan hage
  have hm := (h.store hash query schema e).2
  have hadd : (m.add (filed hash query schema e)).1 = true := Shelf.add_iff.2 ⟨ht.1, ht.2.2⟩
  rw [Shelf.offer_taken ht] at hm
  apply hm.find_of_held (Shelf.held?_add hadd)
  · rw [Shelf.config_add]
    exact ht.1
  · rwa [Shelf.config_add]
  · rwa [Shelf.config_add]
  · exact ⟨rfl, rfl⟩

end Mirrors

end Cache

theorem milliseconds_toNat (nanos : Nat) :
    (milliseconds nanos).toNat = min (nanos / 1000000) (UInt32.size - 1) := by
  unfold milliseconds
  split
  · rename_i h
    rw [show (nanos / 1000000).toUInt32.toNat = nanos / 1000000 from Nat.mod_eq_of_lt h]
    omega
  · rename_i h
    show UInt32.size - 1 = _
    omega

end ResultCache
