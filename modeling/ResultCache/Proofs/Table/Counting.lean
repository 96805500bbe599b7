/-
What the counters of a cache count. Hits, misses and refusals are counted one by one as the answers
are given. Evictions are counted by six different paths; what joins them is a balance: with every
operation, the entries dropped and those held afterwards are together the entries held before and
the one stored (`Balances`). So over a whole history every entry stored is either held or has been
counted once as it was dropped. Counters have 64 bits and wrap around.
-/
import ResultCache.Proofs.Table.Refinement

namespace ResultCache

/-! ## Kinds of answers -/

def Operation.isLookup : Operation → Bool
  | .find .. => true
  | _ => false

namespace Answer

/-- A lookup that found an entry. -/
def isHit : Answer → Bool
  | .found (.ok (some _)) => true
  | _ => false

/-- A lookup that found none. -/
def isMiss : Answer → Bool
  | .found (.ok none) => true
  | _ => false

/-- A lookup that did not come to an answer. -/
def isFault : Answer → Bool
  | .found (.error _) => true
  | _ => false

def isStored : Answer → Bool
  | .added stored => stored
  | _ => false

def isRefused : Answer → Bool
  | .added stored => !stored
  | _ => false

end Answer

namespace Cache

variable {c c' : Cache} {m : Shelf} {now : Instant} {index : Int64} {key : UInt64}
  {filterHashes : List UInt64}

/-! ## Counting answers -/

theorem toUInt64_add (a b : Nat) : (a + b).toUInt64 = a.toUInt64 + b.toUInt64 :=
  UInt64.ofNat_add a b

/-- Everything a lookup can do. -/
theorem find_cases (now : Instant) (index : Int64) (key : UInt64) (filterHashes : List UInt64)
    (c : Cache) :
    c.find now index key filterHashes = (.ok none, c.countMiss) ∨
    (∃ f, c.find now index key filterHashes = (.error f, c)) ∨
    (∃ s e slab, c.slab.remove? s = some (e, slab) ∧ c.find now index key filterHashes =
      (.ok none, ({ c with slab }.countEvictions 1).countMiss)) ∨
    ∃ s e, c.find now index key filterHashes =
      (.ok (some e), { c with slab := c.slab.promote s }.countHit) := by
  cases hf : (if c.config.isEnabled then c.slab.find? key else none) with
  | none => exact .inl (find_absent hf)
  | some p =>
    obtain ⟨s, e⟩ := p
    cases hexp : e.expired now c.config.ttlSecs with
    | error f => exact .inr (.inl ⟨f, find_fault hf hexp⟩)
    | ok old =>
      cases old with
      | true =>
        cases hr : c.slab.remove? s with
        | none =>
          left
          unfold find
          rw [hf]
          dsimp only
          rw [hexp]
          dsimp only
          rw [hr]
        | some q =>
          obtain ⟨e', slab⟩ := q
          exact .inr (.inr (.inl ⟨s, e', slab, hr, find_expired hf hexp hr⟩))
      | false =>
        by_cases hm : e.index = index ∧ e.filterHashes = filterHashes
        · exact .inr (.inr (.inr ⟨s, e, find_hit hf hexp hm⟩))
        · exact .inl (find_other hf hexp hm)

/-- A number that rises by one with every answer of a kind counts the answers of that kind. -/
theorem Mirrors.run_counts {f : Cache → UInt64} {p : Answer → Bool}
    (step : ∀ op c m, c.Mirrors m → f (c.serve op).2 = f c + if p (c.serve op).1 then 1 else 0)
    (ops : List Operation) : ∀ {c : Cache} {m : Shelf}, c.Mirrors m →
      f (c.run ops).2 = f c + ((c.run ops).1.countP p).toUInt64 := by
  induction ops with
  | nil => exact fun _ => (UInt64.add_zero _).symm
  | cons op ops ih =>
    intro c m h
    have hrest := ih (h.serve op).2
    have hcount : (c.run (op :: ops)).1.countP p =
        ((c.serve op).2.run ops).1.countP p + if p (c.serve op).1 then 1 else 0 := List.countP_cons
    have hlast : (c.run (op :: ops)).2 = ((c.serve op).2.run ops).2 := rfl
    rw [hlast, hrest, step op c m h, hcount]
    split
    · rw [toUInt64_add, UInt64.add_assoc, UInt64.add_comm 1]
      rfl
    · simp

/-- Hits, misses and refusals rise by one with every such answer. -/
theorem serve_counters (op : Operation) (c : Cache) :
    ((c.serve op).2.hits = c.hits + if (c.serve op).1.isHit then 1 else 0) ∧
    ((c.serve op).2.misses = c.misses + if (c.serve op).1.isMiss then 1 else 0) ∧
    ((c.serve op).2.rejected = c.rejected + if (c.serve op).1.isRefused then 1 else 0) := by
  cases op with
  | add e =>
    by_cases hok : c.config.isEnabled = true ∧ e.sizeBytes ≤ c.config.budget
    · simp [serve, add_stored hok, Answer.isHit, Answer.isMiss, Answer.isRefused, countEvictions]
    · simp [serve, add_refused hok, Answer.isHit, Answer.isMiss, Answer.isRefused, countRejected]
  | find now index key filterHashes =>
    rcases find_cases now index key filterHashes c with
      h | ⟨f, h⟩ | ⟨s, e, slab, -, h⟩ | ⟨s, e, h⟩ <;>
      simp [serve, h, Answer.isHit, Answer.isMiss, Answer.isRefused, countMiss, countHit,
        countEvictions]
  | invalidate index =>
    simp [serve, Answer.isHit, Answer.isMiss, Answer.isRefused, invalidate, countEvictions]
  | configure config =>
    simp [serve, Answer.isHit, Answer.isMiss, Answer.isRefused, configure, countEvictions]
  | clear => simp [serve, Answer.isHit, Answer.isMiss, Answer.isRefused, clear, countEvictions]

/-- Every lookup is a hit, a miss or a fault. -/
theorem run_lookups (ops : List Operation) : ∀ c : Cache,
    (c.run ops).1.countP Answer.isHit + (c.run ops).1.countP Answer.isMiss +
      (c.run ops).1.countP Answer.isFault = ops.countP Operation.isLookup := by
  induction ops with
  | nil => exact fun _ => rfl
  | cons op ops ih =>
    intro c
    have hrest := ih (c.serve op).2
    have hfirst : (c.run (op :: ops)).1 = (c.serve op).1 :: ((c.serve op).2.run ops).1 := rfl
    simp only [hfirst, List.countP_cons]
    cases op with
    | find now index key filterHashes =>
      rcases hr : (c.find now index key filterHashes).1 with f | _ | e <;>
        simp [serve, hr, Answer.isHit, Answer.isMiss, Answer.isFault, Operation.isLookup]
          at hrest ⊢ <;>
        omega
    | _ => simpa [serve, Answer.isHit, Answer.isMiss, Answer.isFault, Operation.isLookup] using hrest

/-! ## Entries come and go -/

/-- The entries dropped from one cache to the next are counted, and together with those held at the
end they are those held at the start and `stored` new ones. -/
def Balances (c c' : Cache) (stored : Nat) : Prop :=
  ∃ dropped, c'.evictions = c.evictions + dropped.toUInt64 ∧
    dropped + c'.length = c.length + stored

theorem Balances.same (hev : c'.evictions = c.evictions) (hslab : c'.slab.keys = c.slab.keys) :
    Balances c c' 0 := by
  refine ⟨0, by simpa using hev, ?_⟩
  simp [length, Slab.length, hslab]

theorem Balances.of_holds {P Q : List (Nat × Entry)} {stored : Nat} (dropped : Nat)
    (hev : c'.evictions = c.evictions + dropped.toUInt64) (hP : c.slab.Holds P)
    (hQ : c'.slab.Holds Q) (hcount : dropped + Q.length = P.length + stored) :
    Balances c c' stored := by
  have hbefore : c.length = P.length := hP.length
  have hafter : c'.length = Q.length := hQ.length
  exact ⟨dropped, hev, by omega⟩

namespace Mirrors

theorem balances_find (h : c.Mirrors m) :
    Balances c (c.find now index key filterHashes).2 0 := by
  rcases find_cases now index key filterHashes c with
    hf | ⟨f, hf⟩ | ⟨s, e, slab, hr, hf⟩ | ⟨s, e, hf⟩
  · rw [hf]
    exact .same rfl rfl
  · rw [hf]
    exact .same rfl rfl
  · obtain ⟨P, hP, -⟩ := h.slab
    obtain ⟨A, B, rfl, hAB⟩ := hP.of_remove? hr
    rw [hf]
    apply Balances.of_holds 1 rfl hP hAB
    simp only [List.length_append, List.length_cons]
    omega
  · rw [hf]
    exact .same rfl (Slab.promote_relinked s c.slab).keys

theorem balances_add (h : c.Mirrors m) (e : Entry) :
    Balances c (c.add e).2 (if (c.add e).1 then 1 else 0) := by
  by_cases hok : c.config.isEnabled = true ∧ e.sizeBytes ≤ c.config.budget
  · obtain ⟨P, hP, hm⟩ := h.slab
    obtain ⟨Q, hQ, hothers, -, hreplaced⟩ := hP.vacate hm e.key
    obtain ⟨R, -, hfit, htrimmed⟩ := hQ.trim (c.config.budget - e.sizeBytes)
    -- the new entry stands before those that trimming has left
    obtain ⟨T, hT, hentries⟩ := (h.add e).2.slab
    have hlength : T.length = R.length + 1 := by
      rw [Shelf.add, if_pos (by rwa [← h.config]), ← h.config, ← hothers, ← hfit] at hentries
      simpa using congrArg List.length hentries
    rw [add_stored hok] at hT ⊢
    apply Balances.of_holds _ rfl hP hT
    rw [if_pos rfl]
    omega
  · rw [add_refused hok]
    exact .same rfl rfl

theorem balances_invalidate (h : c.Mirrors m) (index : Int64) :
    Balances c (c.invalidate index).2 0 := by
  obtain ⟨P, hP, -⟩ := h.slab
  obtain ⟨hcount, Q, hQ, hrest⟩ := hP.removeIndex index
  have hsplit :=
    List.length_eq_countP_add_countP (l := P.map Prod.snd) fun e => decide (e.index = index)
  have hkept : Q.length = (P.map Prod.snd).countP fun e => decide (e.index ≠ index) := by
    rw [List.countP_eq_length_filter, ← hrest, List.length_map]
  apply Balances.of_holds (c.slab.removeIndex index).1 rfl hP hQ
  simp only [List.length_map, decide_eq_true_eq] at hsplit
  rw [hcount, hkept, hsplit, Nat.add_zero]

theorem balances_configure (h : c.Mirrors m) (config : Config) :
    Balances c (c.configure config) 0 := by
  obtain ⟨P, hP, -⟩ := h.slab
  unfold Cache.configure
  cases config.isEnabled with
  | true =>
    obtain ⟨Q, hQ, -, htrimmed⟩ := hP.trim config.budget
    exact .of_holds _ rfl hP hQ htrimmed
  | false => exact .of_holds _ rfl hP hP.drain.2 hP.drain.1

theorem balances_clear (h : c.Mirrors m) : Balances c c.clear 0 := by
  obtain ⟨P, hP, -⟩ := h.slab
  exact .of_holds _ rfl hP hP.drain.2 hP.drain.1

theorem balances (h : c.Mirrors m) (op : Operation) :
    Balances c (c.serve op).2 (if (c.serve op).1.isStored then 1 else 0) := by
  cases op with
  | add e => exact h.balances_add e
  | find now index key filterHashes => exact h.balances_find
  | invalidate index => exact h.balances_invalidate index
  | configure config => exact h.balances_configure config
  | clear => exact h.balances_clear

end Mirrors

/-! ## Histories -/

/-- Entries that are held or have been dropped, counted over a history, are the entries stored. -/
theorem Mirrors.run_balance (h : c.Mirrors m) (ops : List Operation) :
    (c.run ops).2.evictions + (c.run ops).2.length.toUInt64 =
      c.evictions + c.length.toUInt64 + ((c.run ops).1.countP Answer.isStored).toUInt64 := by
  refine h.run_counts (f := fun c => c.evictions + c.length.toUInt64) (fun op c m h => ?_) ops
  obtain ⟨dropped, hev, hlength⟩ := h.balances op
  have hsum := congrArg Nat.toUInt64 hlength
  rw [toUInt64_add, toUInt64_add] at hsum
  rw [hev, UInt64.add_assoc, hsum, ← UInt64.add_assoc]
  congr 1
  split <;> rfl

/-- After every history, up to wrapping around: every lookup that came to an answer is counted as a
hit or a miss, every refusal is counted, and every entry stored is held or has been counted as
evicted. Every further operation adds to the evictions exactly the entries that go. -/
theorem run_counters (config : Config) (ops : List Operation) :
    let answers := ((create config).run ops).1
    let c := ((create config).run ops).2
    c.status.hits + c.status.misses + (answers.countP Answer.isFault).toUInt64 =
      (ops.countP Operation.isLookup).toUInt64 ∧
    c.status.hits = (answers.countP Answer.isHit).toUInt64 ∧
    c.status.rejected = (answers.countP Answer.isRefused).toUInt64 ∧
    (answers.countP Answer.isStored).toUInt64 = c.status.cachedQueries + c.status.evictions ∧
    ∀ op, c.Balances (c.serve op).2 (if (c.serve op).1.isStored then 1 else 0) := by
  intro answers c
  have hempty := create_mirrors config
  have hhits : c.hits = 0 + (answers.countP Answer.isHit).toUInt64 :=
    hempty.run_counts (fun op c _ _ => (serve_counters op c).1) ops
  have hmisses : c.misses = 0 + (answers.countP Answer.isMiss).toUInt64 :=
    hempty.run_counts (fun op c _ _ => (serve_counters op c).2.1) ops
  have hrejected : c.rejected = 0 + (answers.countP Answer.isRefused).toUInt64 :=
    hempty.run_counts (fun op c _ _ => (serve_counters op c).2.2) ops
  have hbalance : c.evictions + c.length.toUInt64 =
      0 + 0 + (answers.countP Answer.isStored).toUInt64 := hempty.run_balance ops
  have hlookups := run_lookups ops (create config)
  rw [UInt64.zero_add] at hhits hmisses hrejected
  refine ⟨?_, hhits, hrejected, ?_, (run_mirrors config ops).2.balances⟩
  · show c.hits + c.misses + _ = _
    rw [hhits, hmisses, ← toUInt64_add, ← toUInt64_add, hlookups]
  · show _ = c.length.toUInt64 + c.evictions
    rw [UInt64.add_comm, hbalance, UInt64.add_zero, UInt64.zero_add]

end Cache

end ResultCache
