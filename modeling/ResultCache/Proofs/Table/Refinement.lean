/-
A cache is its list. `Mirrors` relates a cache to the shelf that has its entries in its order, and
every operation keeps the two related and answers alike, except for a lookup that stalls: it ends in
a fault and changes nothing. So a cache gives the answers of its list in every history in which no
lookup stalls, and in no other.
-/
import ResultCache.Proofs.Table.Eviction

namespace ResultCache

namespace Slab.Holds

variable {t : Slab} {P R : List (Nat × Entry)} {s : Nat} {e : Entry} {m : Shelf}

/-! ## Lookups in the list -/

theorem held?_eq (h : t.Holds P) (hm : P.map Prod.snd = m.entries) (key : UInt64) :
    m.held? key = (t.find? key).map Prod.snd := by
  unfold Shelf.held?
  rw [← hm, List.find?_map]
  rcases hf : t.find? key with _ | ⟨s, e⟩
  · rw [List.find?_eq_none.2 fun p hp => by simpa using h.find?_eq_none_iff.1 hf p hp]
  · obtain ⟨hp, hk⟩ := h.find?_eq_some_iff.1 hf
    rcases hg : P.find? ((fun e => e.key == key) ∘ Prod.snd) with _ | q
    · exact absurd (List.find?_eq_none.1 hg _ hp) (by simp [hk])
    · -- two entries of one key are one entry
      have hq := List.mem_of_find?_eq_some hg
      have hkq : q.2.key = key := by simpa using List.find?_some hg
      have : q = (s, e) := List.inj_on_of_nodup_map h.distinct hq hp (hkq.trans hk.symm)
      rw [hg, this, Option.map_some]

theorem others_eq (h : t.Holds (P ++ (s, e) :: R)) (hm : (P ++ (s, e) :: R).map Prod.snd = m.entries) :
    m.others e.key = (P ++ R).map Prod.snd := by
  have hne : ∀ p ∈ P ++ R, p.2.key ≠ e.key := fun p hp hk =>
    h.notMem_keys (List.mem_map.2 ⟨p, hp, hk⟩)
  have hself : ∀ Q : List (Nat × Entry), (∀ p ∈ Q, p.2.key ≠ e.key) →
      (Q.map Prod.snd).filter (fun e' => e'.key != e.key) = Q.map Prod.snd := by
    intro Q hQ
    refine List.filter_eq_self.2 fun e' he' => ?_
    obtain ⟨p, hp, rfl⟩ := List.mem_map.1 he'
    simpa using hQ p hp
  unfold Shelf.others
  rw [← hm, List.map_append, List.map_cons, List.filter_append, List.filter_cons_of_neg (by simp),
    hself P fun p hp => hne p (List.mem_append_left _ hp),
    hself R fun p hp => hne p (List.mem_append_right _ hp), List.map_append]

theorem others_eq_self (h : t.Holds P) (hm : P.map Prod.snd = m.entries) {key : UInt64}
    (hf : t.find? key = none) : m.others key = m.entries := by
  refine List.filter_eq_self.2 fun e he => ?_
  rw [← hm] at he
  obtain ⟨p, hp, rfl⟩ := List.mem_map.1 he
  simpa using h.find?_eq_none_iff.1 hf p hp

end Slab.Holds

/-! ## Lifetimes -/

theorem Entry.expired_of_endless {now : Instant} {secs : Int64} {e : Entry}
    (h : Shelf.endless secs = true) : e.expired now secs = .error (.lifetimeOutOfRange secs) := by
  have hl : ¬ (-longestSpan ≤ secs.toInt ∧ secs.toInt ≤ longestSpan) := by
    have := of_decide_eq_true h
    omega
  unfold expired lifetime
  rw [if_neg hl]

theorem Entry.expired_eq_outlived {now : Instant} {secs : Int64} {e : Entry}
    (h : Shelf.endless secs = false) : e.expired now secs = .ok (Shelf.outlived now secs e) := by
  have hl : -longestSpan ≤ secs.toInt ∧ secs.toInt ≤ longestSpan := by
    have := of_decide_eq_false h
    omega
  unfold expired lifetime
  rw [if_pos hl]; rfl

/-! ## The cases of a lookup -/

namespace Cache

section

variable {c : Cache} {now : Instant} {index : Int64} {key : UInt64} {filterHashes : List UInt64}
  {s : Nat} {e : Entry}

theorem find_absent (h : (if c.config.isEnabled then c.slab.find? key else none) = none) :
    c.find now index key filterHashes = (.ok none, c.countMiss) := by
  unfold find
  rw [h]

variable (h : (if c.config.isEnabled then c.slab.find? key else none) = some (s, e))

include h

theorem find_fault {f : Fault} (he : e.expired now c.config.ttlSecs = .error f) :
    c.find now index key filterHashes = (.error f, c) := by
  unfold find
  rw [h]
  dsimp only
  rw [he]

theorem find_expired {e' : Entry} {slab : Slab} (he : e.expired now c.config.ttlSecs = .ok true)
    (hr : c.slab.remove? s = some (e', slab)) : c.find now index key filterHashes =
      (.ok none, ({ c with slab }.countEvictions 1).countMiss) := by
  unfold find
  rw [h]
  dsimp only
  rw [he]
  dsimp only
  rw [hr]

theorem find_hit (he : e.expired now c.config.ttlSecs = .ok false)
    (hm : e.index = index ∧ e.filterHashes = filterHashes) : c.find now index key filterHashes =
      (.ok (some e), { c with slab := c.slab.promote s }.countHit) := by
  unfold find
  rw [h]
  dsimp only
  rw [he]
  dsimp only
  rw [if_pos hm]

theorem find_other (he : e.expired now c.config.ttlSecs = .ok false)
    (hm : ¬ (e.index = index ∧ e.filterHashes = filterHashes)) :
    c.find now index key filterHashes = (.ok none, c.countMiss) := by
  unfold find
  rw [h]
  dsimp only
  rw [he]
  dsimp only
  rw [if_neg hm]

end

end Cache

/-! ## Storing an entry -/

/-- A slab without the entry of a key, and how many entries that takes off. -/
def Slab.vacate (key : UInt64) (t : Slab) : Nat × Slab :=
  match t.keys[key]? with
  | some slot =>
    match t.remove? slot with
    | some (_, t') => (1, t')
    | none => (0, t)
  | none => (0, t)

theorem Slab.Holds.vacate {t : Slab} {P : List (Nat × Entry)} {m : Shelf} (h : t.Holds P)
    (hm : P.map Prod.snd = m.entries) (key : UInt64) :
    ∃ Q, (t.vacate key).2.Holds Q ∧ Q.map Prod.snd = m.others key ∧
      (key ∉ Q.map fun p => p.2.key) ∧ (t.vacate key).1 + Q.length = P.length := by
  unfold Slab.vacate
  rcases hk : t.keys[key]? with _ | s
  · have hf : t.find? key = none := by unfold Slab.find?; rw [hk]; rfl
    refine ⟨P, h, hm.trans (h.others_eq_self hm hf).symm, ?_, Nat.zero_add _⟩
    rintro hmem
    obtain ⟨p, hp, hpk⟩ := List.mem_map.1 hmem
    exact h.find?_eq_none_iff.1 hf p hp hpk
  · obtain ⟨e, hp, rfl⟩ := (h.keys key s).1 hk
    obtain ⟨A, B, rfl⟩ := List.append_of_mem hp
    obtain ⟨t', hr, h'⟩ := h.remove?
    dsimp only
    rw [hr]
    refine ⟨A ++ B, h', (h.others_eq hm).symm, h.notMem_keys, ?_⟩
    simp only [List.length_append, List.length_cons]
    omega

namespace Cache

theorem add_refused {c : Cache} {e : Entry}
    (h : ¬ (c.config.isEnabled = true ∧ e.sizeBytes ≤ c.config.budget)) :
    c.add e = (false, c.countRejected) := by
  have hno : (!c.config.isEnabled || decide (c.config.budget < e.sizeBytes)) = true := by
    rw [not_and_or, Nat.not_le] at h
    rcases h with h | h <;> simp [h]
  unfold add
  dsimp only
  rw [hno, if_pos rfl]

theorem add_stored {c : Cache} {e : Entry}
    (h : c.config.isEnabled = true ∧ e.sizeBytes ≤ c.config.budget) :
    c.add e = (true, { c with
      slab := ((c.slab.vacate e.key).2.trim (c.config.budget - e.sizeBytes)).2.insert e }.countEvictions
        ((c.slab.vacate e.key).1 + ((c.slab.vacate e.key).2.trim (c.config.budget - e.sizeBytes)).1)) := by
  have hyes : (!c.config.isEnabled || decide (c.config.budget < e.sizeBytes)) = false := by
    simp [h.1, Nat.not_lt.2 h.2]
  unfold add
  dsimp only
  rw [hyes]
  rfl

end Cache

/-! ## The relation -/

/-- The shelf has the configuration of the cache and, in order, the entries the cache holds. -/
structure Cache.Mirrors (c : Cache) (m : Shelf) : Prop where
  config : c.config = m.config
  slab : ∃ P, c.slab.Holds P ∧ P.map Prod.snd = m.entries
  fits : totalSize m.entries ≤ m.config.budget

namespace Cache

theorem create_mirrors (config : Config) : (create config).Mirrors (Shelf.create config) :=
  ⟨rfl, ⟨[], Slab.empty_holds, rfl⟩, Nat.zero_le _⟩

/-- The counters do not bear on what a cache holds. -/
theorem Mirrors.congr {c c' : Cache} {m : Shelf} (h : c.Mirrors m) (hc : c'.config = c.config)
    (hs : c'.slab = c.slab) : c'.Mirrors m :=
  ⟨hc.trans h.config, hs ▸ h.slab, h.fits⟩

namespace Mirrors

variable {c : Cache} {m : Shelf} {now : Instant} {index : Int64} {key : UInt64}
  {filterHashes : List UInt64}

theorem find_stalls (h : c.Mirrors m)
    (hs : Shelf.stalls (.find now index key filterHashes) m = true) :
    c.find now index key filterHashes = (.error (.lifetimeOutOfRange m.config.ttlSecs), c) := by
  obtain ⟨P, hP, hm⟩ := h.slab
  simp only [Shelf.stalls, Bool.and_eq_true, hP.held?_eq hm, Option.isSome_map] at hs
  obtain ⟨⟨hen, hheld⟩, hend⟩ := hs
  obtain ⟨⟨s, e⟩, hf⟩ := Option.isSome_iff_exists.1 hheld
  rw [← h.config] at hen hend ⊢
  exact find_fault (by rw [if_pos hen, hf]) (Entry.expired_of_endless hend)

theorem find (h : c.Mirrors m) (hs : Shelf.stalls (.find now index key filterHashes) m = false) :
    (c.find now index key filterHashes).1 = .ok (m.find now index key filterHashes).1 ∧
      (c.find now index key filterHashes).2.Mirrors (m.find now index key filterHashes).2 := by
  obtain ⟨P, hP, hm⟩ := h.slab
  unfold Shelf.find
  rw [hP.held?_eq hm]
  cases hen : m.config.isEnabled with
  | false =>
    rw [find_absent (by rw [h.config, hen]; rfl)]
    exact ⟨rfl, h.congr rfl rfl⟩
  | true =>
    rcases hf : c.slab.find? key with _ | ⟨s, e⟩
    · rw [find_absent (by rw [h.config, hen, if_pos rfl, hf])]
      exact ⟨rfl, h.congr rfl rfl⟩
    have hsome : (if c.config.isEnabled then c.slab.find? key else none) = some (s, e) := by
      rw [h.config, hen, if_pos rfl, hf]
    obtain ⟨hp, rfl⟩ := hP.find?_eq_some_iff.1 hf
    have hend : Shelf.endless m.config.ttlSecs = false := by
      simpa [Shelf.stalls, hen, hP.held?_eq hm, hf] using hs
    have hexp : e.expired now c.config.ttlSecs = .ok (Shelf.outlived now m.config.ttlSecs e) := by
      rw [h.config]; exact Entry.expired_eq_outlived hend
    obtain ⟨A, B, rfl⟩ := List.append_of_mem hp
    have hothers := hP.others_eq hm
    have hsize : e.sizeBytes + totalSize (m.others e.key) ≤ m.config.budget := by
      have hfits := h.fits
      rw [← hm] at hfits
      rw [hothers]
      simp only [List.map_append, List.map_cons, totalSize_append, totalSize_cons] at hfits ⊢
      omega
    rw [if_pos rfl, Option.map_some]
    dsimp only
    cases hout : Shelf.outlived now m.config.ttlSecs e with
    | true =>
      obtain ⟨t', hr, h'⟩ := hP.remove?
      rw [hout] at hexp
      rw [find_expired hsome hexp hr, if_pos rfl]
      refine ⟨rfl, h.config, ⟨_, h', hothers.symm⟩, ?_⟩
      show totalSize (m.others e.key) ≤ m.config.budget
      omega
    | false =>
      rw [hout] at hexp
      rw [if_neg Bool.false_ne_true]
      by_cases hmatch : e.index = index ∧ e.filterHashes = filterHashes
      · rw [find_hit hsome hexp hmatch, if_pos hmatch]
        exact ⟨rfl, h.config, ⟨_, hP.promote, congrArg (e :: ·) hothers.symm⟩, hsize⟩
      · rw [find_other hsome hexp hmatch, if_neg hmatch]
        exact ⟨rfl, h.congr rfl rfl⟩

theorem add (h : c.Mirrors m) (e : Entry) :
    (c.add e).1 = (m.add e).1 ∧ (c.add e).2.Mirrors (m.add e).2 := by
  obtain ⟨P, hP, hm⟩ := h.slab
  unfold Shelf.add
  by_cases hok : m.config.isEnabled = true ∧ e.sizeBytes ≤ m.config.budget
  · rw [if_pos hok, add_stored (by rwa [h.config]), h.config]
    obtain ⟨Q, hQ, hothers, hkey, -⟩ := hP.vacate hm e.key
    obtain ⟨R, hR, hfit, -⟩ := hQ.trim (m.config.budget - e.sizeBytes)
    rw [hothers] at hfit
    -- trimming keeps the key of the new entry off the list
    have hkeyR : e.key ∉ R.map fun p => p.2.key := by
      have hsub : (R.map fun p => p.2.key).Sublist (Q.map fun p => p.2.key) := by
        have := (fitting_start (m.others e.key) (m.config.budget - e.sizeBytes)).sublist.map Entry.key
        rw [← hfit, ← hothers, List.map_map, List.map_map] at this
        exact this
      exact fun hin => hkey (hsub.subset hin)
    obtain ⟨s, hins⟩ := hR.insert hkeyR
    refine ⟨rfl, rfl, ⟨_, hins, congrArg (e :: ·) hfit⟩, ?_⟩
    have := totalSize_fitting_le (m.others e.key) (m.config.budget - e.sizeBytes)
    show e.sizeBytes + totalSize _ ≤ m.config.budget
    omega
  · rw [if_neg hok, add_refused (by rwa [h.config])]
    exact ⟨rfl, h.congr rfl rfl⟩

theorem invalidate (h : c.Mirrors m) (index : Int64) :
    (c.invalidate index).1 = (m.invalidate index).1 ∧
      (c.invalidate index).2.Mirrors (m.invalidate index).2 := by
  obtain ⟨P, hP, hm⟩ := h.slab
  obtain ⟨hcount, Q, hQ, hrest⟩ := hP.removeIndex index
  rw [hm] at hcount hrest
  exact ⟨hcount, h.config, ⟨Q, hQ, hrest⟩, Nat.le_trans (totalSize_filter_le _ _) h.fits⟩

theorem configure (h : c.Mirrors m) (config : Config) :
    (c.configure config).Mirrors (m.configure config) := by
  obtain ⟨P, hP, hm⟩ := h.slab
  unfold Cache.configure Shelf.configure
  cases config.isEnabled with
  | true =>
    obtain ⟨Q, hQ, hfit, -⟩ := hP.trim config.budget
    rw [hm] at hfit
    exact ⟨rfl, ⟨Q, hQ, hfit⟩, totalSize_fitting_le _ _⟩
  | false => exact ⟨rfl, ⟨[], Slab.empty_holds, rfl⟩, Nat.zero_le _⟩

theorem clear (h : c.Mirrors m) : c.clear.Mirrors m.clear :=
  ⟨h.config, ⟨[], Slab.empty_holds, rfl⟩, Nat.zero_le _⟩

theorem serve (h : c.Mirrors m) (op : Operation) :
    (c.serve op).1 = (m.serveOrStall op).1 ∧ (c.serve op).2.Mirrors (m.serveOrStall op).2 := by
  unfold Shelf.serveOrStall
  cases hs : Shelf.stalls op m with
  | true =>
    rw [if_pos rfl]
    cases op with
    | find now index key filterHashes =>
      rw [Cache.serve, h.find_stalls hs]
      exact ⟨rfl, h⟩
    | _ => cases hs
  | false =>
    rw [if_neg Bool.false_ne_true]
    cases op with
    | add e =>
      obtain ⟨ha, h'⟩ := h.add e
      exact ⟨congrArg Answer.added ha, h'⟩
    | find now index key filterHashes =>
      obtain ⟨ha, h'⟩ := h.find hs
      exact ⟨congrArg Answer.found ha, h'⟩
    | invalidate index =>
      obtain ⟨ha, h'⟩ := h.invalidate index
      exact ⟨congrArg Answer.dropped ha, h'⟩
    | configure config => exact ⟨rfl, h.configure config⟩
    | clear => exact ⟨rfl, h.clear⟩

end Mirrors

/-! ## Histories -/

theorem run_mirrors (config : Config) (ops : List Operation) :
    ((create config).run ops).1 = ((Shelf.create config).runOrStall ops).1 ∧
      ((create config).run ops).2.Mirrors ((Shelf.create config).runOrStall ops).2 :=
  serveAll_simulation (fun op _ _ h => h.serve op) ops _ _ (create_mirrors config)

end Cache

namespace Shelf

theorem runOrStall_eq_run (ops : List Operation) : ∀ m : Shelf, Flows ops m →
    m.runOrStall ops = m.run ops := by
  induction ops with
  | nil => exact fun _ _ => rfl
  | cons op ops ih =>
    rintro m ⟨hs, hflows⟩
    have hserve : m.serveOrStall op = m.serve op := if_neg (by rw [hs]; exact Bool.false_ne_true)
    have := ih _ hflows
    unfold runOrStall run at this ⊢
    rw [serveAll, serveAll, hserve, this]

/-- The answer to a lookup that stalls is none of a list. -/
theorem flows_of_answers_eq (ops : List Operation) : ∀ m : Shelf,
    (m.runOrStall ops).1 = (m.run ops).1 → Flows ops m := by
  induction ops with
  | nil => exact fun _ _ => trivial
  | cons op ops ih =>
    intro m h
    obtain ⟨hhead, htail⟩ := List.cons.inj h
    cases hs : stalls op m with
    | true =>
      have hstall : m.serveOrStall op = (.found (.error (.lifetimeOutOfRange m.config.ttlSecs)), m) :=
        if_pos hs
      rw [hstall] at hhead
      cases op <;> cases hhead
    | false =>
      have hserve : m.serveOrStall op = m.serve op := if_neg (by rw [hs]; exact Bool.false_ne_true)
      rw [hserve] at htail
      exact ⟨hs, ih _ htail⟩

end Shelf

/-! ## What a cache shows -/

/-- What can be seen of a cache is what its list has. -/
structure Cache.Shows (c : Cache) (m : Shelf) : Prop where
  config : c.config = m.config
  entries : c.entries = m.entries
  length : c.length = m.entries.length
  usedBytes : c.slab.usedBytes = totalSize m.entries

theorem Cache.Mirrors.shows {c : Cache} {m : Shelf} (h : c.Mirrors m) : c.Shows m := by
  obtain ⟨P, hP, hm⟩ := h.slab
  refine ⟨h.config, hP.entries.trans hm, ?_, hP.used_eq_totalSize.trans (congrArg totalSize hm)⟩
  rw [← hm, List.length_map]
  exact hP.length

/-- A cache answers every history as its list does, lookups that stall apart, and shows the entries,
their number and their bytes. Without such lookups, and only then, it answers as the list that knows
nothing of them. -/
theorem Cache.run_eq_shelf_run (config : Config) (ops : List Operation) :
    ((create config).run ops).1 = ((Shelf.create config).runOrStall ops).1 ∧
    ((create config).run ops).2.Shows ((Shelf.create config).runOrStall ops).2 ∧
    (((create config).run ops).1 = ((Shelf.create config).run ops).1 ↔
      Shelf.Flows ops (Shelf.create config)) ∧
    (Shelf.Flows ops (Shelf.create config) →
      ((create config).run ops).2.Shows ((Shelf.create config).run ops).2) := by
  obtain ⟨hanswers, hmirrors⟩ := run_mirrors config ops
  refine ⟨hanswers, hmirrors.shows, ⟨fun h => ?_, fun h => ?_⟩, fun h => ?_⟩
  · exact Shelf.flows_of_answers_eq ops _ (hanswers.symm.trans h)
  · rw [hanswers, Shelf.runOrStall_eq_run ops _ h]
  · rw [← Shelf.runOrStall_eq_run ops _ h]
    exact hmirrors.shows

/-- A lifetime without an end is one the cache cannot express: it stalls on the entry just stored,
which the list gives out. -/
theorem Cache.run_ne_shelf_run :
    ((create ⟨1000, 0, 9223372036854775807⟩).run
        [.add { index := 1, builtAt := 0, elapsedMs := 10, key := 7, stream := {} },
          .find 0 1 7 []]).1 ≠
      ((Shelf.create ⟨1000, 0, 9223372036854775807⟩).run
        [.add { index := 1, builtAt := 0, elapsedMs := 10, key := 7, stream := {} },
          .find 0 1 7 []]).1 := by
  intro h
  rw [(run_mirrors _ _).1] at h
  obtain ⟨-, hfind, -⟩ := Shelf.flows_of_answers_eq _ _ h
  exact absurd hfind (by decide)

end ResultCache
