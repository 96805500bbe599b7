/-
A larger budget never hurts. Two caches with the same lifetime but different budgets meet the same
demands. As long as all entries of a key agree in index, filters and size and fit into the smaller
budget, and none held is too old when one is fetched, the keys held under the smaller budget, from
the most to the least recently used, are a beginning of those held under the larger one; so every
hit of the smaller cache is one of the larger.
-/
import ResultCache.Proofs.Table.Demand

namespace ResultCache

/-! ## Two lists -/

/-- The keys of entries in order. -/
abbrev keysOf (es : List Entry) : List UInt64 := es.map Entry.key

section

variable {cat : Catalogue} {es es' : List Entry}

/-- A larger budget has room for the entries of as many keys. -/
theorem fitting_prefix (hes : ∀ e ∈ es, cat.Lists e) (hes' : ∀ e ∈ es', cat.Lists e)
    (h : keysOf es <+: keysOf es') : ∀ {budget budget' : Nat}, budget ≤ budget' →
      keysOf (fitting budget es) <+: keysOf (fitting budget' es') := by
  induction es generalizing es' with
  | nil => exact fun _ => List.nil_prefix
  | cons e es ih =>
    intro budget budget' hle
    cases es' with
    | nil => exact absurd (List.prefix_nil.1 h) (List.cons_ne_nil _ _)
    | cons e' es' =>
      obtain ⟨hkey, hrest⟩ := List.cons_prefix_cons.1 h
      obtain ⟨he, hes⟩ := List.forall_mem_cons.1 hes
      obtain ⟨he', hes'⟩ := List.forall_mem_cons.1 hes'
      have hsize : e.sizeBytes = e'.sizeBytes := by rw [he.size, he'.size, hkey]
      unfold fitting
      by_cases hfits : e.sizeBytes ≤ budget
      · rw [if_pos hfits, if_pos (by omega)]
        exact List.cons_prefix_cons.2 ⟨hkey, ih hes hes' hrest (by omega)⟩
      · rw [if_neg hfits]
        exact List.nil_prefix

/-- Entries taken off for what their keys tell leave the keys of the others. -/
theorem keysOf_filter {p : Entry → Bool} {q : UInt64 → Bool} (h : ∀ e ∈ es, p e = q e.key) :
    keysOf (es.filter p) = (keysOf es).filter q := by
  rw [keysOf, List.filter_congr h, List.filter_map]
  rfl

end

namespace Shelf

/-- The keys on one shelf are, in order, a beginning of those on another. -/
structure Within (cat : Catalogue) (m m' : Shelf) : Prop where
  keys : keysOf m.entries <+: keysOf m'.entries
  listed : m.Listed cat
  listed' : m'.Listed cat
  on : m.config.isEnabled = true
  on' : m'.config.isEnabled = true
  budget : m.config.budget ≤ m'.config.budget

variable {cat : Catalogue} {m m' n n' : Shelf} {d : Demand} {hit hit' : Bool}

theorem held?_eq_none_iff {key : UInt64} : m.held? key = none ↔ key ∉ keysOf m.entries := by
  simp [held?]

theorem Within.others (h : m.Within cat m') (key : UInt64) :
    keysOf (m.others key) <+: keysOf (m'.others key) := by
  have hfilter : ∀ es : List Entry, keysOf (es.filter fun e => e.key != key) =
      (keysOf es).filter (· != key) := fun es => keysOf_filter fun _ _ => rfl
  rw [Shelf.others, Shelf.others, hfilter, hfilter]
  exact h.keys.filter _

/-- The same demand keeps one shelf within the other, and a hit on the smaller is a hit on the
larger. -/
theorem Within.meets (h : m.Within cat m') (hd : cat.Covers m.config.budget d)
    (hn : m.Meets d hit n) (hn' : m'.Meets d hit' n') :
    n.Within cat n' ∧ (hit = true → hit' = true) := by
  suffices hkeys : keysOf n.entries <+: keysOf n'.entries ∧ (hit = true → hit' = true) from
    ⟨⟨hkeys.1, hn.listed h.listed hd, hn'.listed h.listed' (hd.mono h.budget), hn.config ▸ h.on,
      hn'.config ▸ h.on', hn.config ▸ hn'.config ▸ h.budget⟩, hkeys.2⟩
  cases hn with
  | @found now e a hheld =>
    obtain ⟨hmem, hkey⟩ := of_held? hheld
    cases hn' with
    | found hheld' =>
      have hkey' := (of_held? hheld').2
      exact ⟨List.cons_prefix_cons.2 ⟨hkey.trans hkey'.symm, h.others _⟩, fun _ => rfl⟩
    | made hheld' =>
      -- the larger shelf has every key of the smaller
      refine absurd (h.keys.subset ?_) (held?_eq_none_iff.1 hheld')
      exact hkey ▸ List.mem_map_of_mem hmem
  | @made now e hheld =>
    refine ⟨?_, Bool.noConfusion⟩
    cases hn' with
    | found hheld' =>
      refine List.cons_prefix_cons.2 ⟨(of_held? hheld').2.symm, ?_⟩
      exact ((fitting_start _ _).map _).trans (h.others _)
    | made hheld' =>
      refine List.cons_prefix_cons.2 ⟨rfl, ?_⟩
      apply fitting_prefix (h.listed.others _) (h.listed'.others _) (h.others _)
      have := h.budget
      omega
  | invalidated index =>
    cases hn'
    refine ⟨?_, id⟩
    have hfilter : ∀ {m : Shelf}, m.Listed cat → keysOf (m.entries.filter (·.index ≠ index)) =
        (keysOf m.entries).filter fun k => cat.index k ≠ index := fun hm =>
      keysOf_filter fun e he => by rw [(hm e he).index]
    show keysOf (m.entries.filter _) <+: keysOf (m'.entries.filter _)
    rw [hfilter h.listed, hfilter h.listed']
    exact h.keys.filter _
  | cleared =>
    cases hn'
    exact ⟨List.nil_prefix, id⟩

end Shelf

namespace Cache

namespace Mirrors

variable {cat : Catalogue} {c c' n n' : Cache} {m m' : Shelf} {d : Demand} {hit hit' : Bool}

/-- The same demand keeps one cache within another, and a hit of the smaller is one of the larger. -/
theorem meet_within (h : c.Mirrors m) (h' : c'.Mirrors m') (hwithin : m.Within cat m')
    (hd : cat.Covers m.config.budget d) (hfresh : c.FreshFor d) (hfresh' : c'.FreshFor d)
    (hmeet : c.meet d = .ok (hit, n)) (hmeet' : c'.meet d = .ok (hit', n')) :
    ∃ w w', n.Mirrors w ∧ n'.Mirrors w' ∧ w.Within cat w' ∧ w.config = m.config ∧
      (hit = true → hit' = true) := by
  obtain ⟨w, hw, hmeets⟩ := h.meets hwithin.on hwithin.listed hd hfresh hmeet
  obtain ⟨w', hw', hmeets'⟩ :=
    h'.meets hwithin.on' hwithin.listed' (hd.mono hwithin.budget) hfresh' hmeet'
  obtain ⟨hkept, hhit⟩ := hwithin.meets hd hmeets hmeets'
  exact ⟨w, w', hw, hw', hkept, hmeets.config, hhit⟩

/-- The same demands do, and so there are no more hits of the smaller cache. -/
theorem meetAll_within (ds : List Demand) : ∀ {c c' : Cache} {m m' : Shelf}, c.Mirrors m →
    c'.Mirrors m' → m.Within cat m' → (∀ d ∈ ds, cat.Covers m.config.budget d) → c.Timely ds →
    c'.Timely ds → ∀ {hits hits' : Nat}, c.meetAll ds = .ok (hits, n) →
        c'.meetAll ds = .ok (hits', n') →
          keysOf n.entries <+: keysOf n'.entries ∧ hits ≤ hits' := by
  induction ds with
  | nil =>
    rintro c c' m m' h h' hwithin - - - hits hits' hn hn'
    cases hn
    cases hn'
    rw [h.shows.entries, h'.shows.entries]
    exact ⟨hwithin.keys, Nat.le_refl _⟩
  | cons d ds ih =>
    rintro c c' m m' h h' hwithin hcovers ⟨hfresh, htimely⟩ ⟨hfresh', htimely'⟩ hits hits' hn hn'
    obtain ⟨hit, c₁, rest, hmeet, hrest, rfl⟩ := meetAll_cons.1 hn
    obtain ⟨hit', c₁', rest', hmeet', hrest', rfl⟩ := meetAll_cons.1 hn'
    obtain ⟨hd, hds⟩ := List.forall_mem_cons.1 hcovers
    obtain ⟨w, w', hw, hw', hkept, hconfig, hhit⟩ :=
      h.meet_within h' hwithin hd hfresh hfresh' hmeet hmeet'
    obtain ⟨hkeys, hle⟩ := ih hw hw' hkept (by rwa [hconfig]) (htimely _ _ hmeet)
      (htimely' _ _ hmeet') hrest hrest'
    refine ⟨hkeys, Nat.add_le_add ?_ hle⟩
    cases hit with
    | true => simp [hhit rfl]
    | false => exact Nat.zero_le _

end Mirrors

/-! ## Two budgets -/

/-- Whatever both caches are asked for, after every step the keys under the smaller budget are a
beginning of those under the larger one, and no more lookups were hits. All steps are carried out if
the lifetime can be expressed. -/
theorem larger_budget_includes {cat : Catalogue} {small large : Config} {ds : List Demand}
    (httl : small.ttlSecs = large.ttlSecs) (hpos : 0 < small.maxBytes)
    (hle : small.maxBytes ≤ large.maxBytes)
    (hcovers : ∀ d ∈ ds, cat.Covers small.budget d) (hsmall : (create small).Timely ds)
    (hlarge : (create large).Timely ds) :
    (Shelf.endless small.ttlSecs = false → (∃ r, (create small).meetAll ds = .ok r) ∧
      ∃ r, (create large).meetAll ds = .ok r) ∧
    ∀ before hits hits' c c', before <+: ds → (create small).meetAll before = .ok (hits, c) →
      (create large).meetAll before = .ok (hits', c') →
      c.entries.map Entry.key <+: c'.entries.map Entry.key ∧ hits ≤ hits' ∧
        c.hits = hits.toUInt64 ∧ c'.hits = hits'.toUInt64 := by
  have hm := create_mirrors small
  have hm' := create_mirrors large
  constructor
  · intro hspan
    have hspan' : Shelf.endless large.ttlSecs = false := httl ▸ hspan
    obtain ⟨hits, c, hrun⟩ : ∃ hits c, (create small).meetAll ds = .ok (hits, c) :=
      hm.meetAll_answers hspan
    obtain ⟨hits', c', hrun'⟩ : ∃ hits c, (create large).meetAll ds = .ok (hits, c) :=
      hm'.meetAll_answers hspan'
    exact ⟨⟨_, hrun⟩, ⟨_, hrun'⟩⟩
  · intro before hits hits' c c' hp hrun hrun'
    have hwithin : (Shelf.create small).Within cat (Shelf.create large) :=
      { keys := List.nil_prefix
        listed := fun _ he => by cases he
        listed' := fun _ he => by cases he
        on := decide_eq_true hpos
        on' := decide_eq_true (Int64.lt_of_lt_of_le hpos hle)
        budget := Int.toNat_le_toNat (Int64.le_iff_toInt_le.1 hle) }
    obtain ⟨hkeys, hcount⟩ := hm.meetAll_within before hm' hwithin
      (fun d hd => hcovers d (hp.subset hd)) (hsmall.of_prefix hp) (hlarge.of_prefix hp) hrun hrun'
    refine ⟨hkeys, hcount, ?_, ?_⟩
    · rw [meetAll_hits hrun]
      exact UInt64.zero_add _
    · rw [meetAll_hits hrun']
      exact UInt64.zero_add _

/-- Three keys are fetched, the first one twice. The smaller budget has no room for three entries,
the larger one has. -/
theorem three_keys_two_budgets :
    let entry : UInt64 → Entry := fun key =>
      { index := 1, builtAt := 0, elapsedMs := 10, filterHashes := if key = 2 then [9] else [],
        key, stream := {} }
    let cat : Catalogue :=
      ⟨fun _ => 1, fun key => if key = 2 then [9] else [], fun key => if key = 2 then 104 else 96⟩
    let ds : List Demand :=
      [.fetch 0 (entry 1), .fetch 5 (entry 2), .fetch 9 (entry 3), .fetch 12 (entry 1),
        .invalidate 4]
    (∀ d ∈ ds, cat.Covers 250 d) ∧ (create ⟨250, 0, 60⟩).Timely ds ∧
      (create ⟨400, 0, 60⟩).Timely ds ∧ ∃ hits hits' c c', (create ⟨250, 0, 60⟩).meetAll ds = .ok (hits, c) ∧
        (create ⟨400, 0, 60⟩).meetAll ds = .ok (hits', c') ∧
        c.entries.map Entry.key <+: c'.entries.map Entry.key ∧ hits ≤ hits' := by
  intro entry cat ds
  have hcovers : ∀ d ∈ ds, cat.Covers 250 d := by
    simp only [ds, List.forall_mem_cons]
    refine ⟨?_, ?_, ?_, ?_, trivial, List.forall_mem_nil _⟩
    all_goals exact ⟨⟨rfl, rfl, rfl⟩, by decide⟩
  -- all entries are of instant 0 and are fetched within a minute
  have hyoung : ∀ (a : Entry) (now : Int), a.builtAt = 0 → now ≤ 60 →
      a.expired now 60 ≠ .ok true := by
    intro a now ha hnow
    have hlifetime : (60 : Int64).toInt = 60 := rfl
    rw [Entry.expired_eq_outlived rfl]
    simp [Shelf.outlived, ha, hlifetime]
    omega
  have htimely : ∀ maxBytes : Int64, (create ⟨maxBytes, 0, 60⟩).Timely ds := by
    intro maxBytes
    apply (create_mirrors _).timely fun a => a.builtAt = 0
    · rintro a ⟨⟩
    · intro now e he
      simp only [ds, List.mem_cons, Demand.fetch.injEq, reduceCtorEq, List.not_mem_nil, or_false]
        at he
      rcases he with ⟨rfl, rfl⟩ | ⟨rfl, rfl⟩ | ⟨rfl, rfl⟩ | ⟨rfl, rfl⟩
      all_goals exact ⟨rfl, fun a ha => hyoung a _ ha (by decide)⟩
  have httl : (⟨250, 0, 60⟩ : Config).ttlSecs = (⟨400, 0, 60⟩ : Config).ttlSecs := rfl
  obtain ⟨hruns, hincludes⟩ :=
    larger_budget_includes httl (by decide) (by decide) hcovers (htimely 250) (htimely 400)
  obtain ⟨⟨⟨hits, c⟩, hrun⟩, ⟨⟨hits', c'⟩, hrun'⟩⟩ := hruns rfl
  obtain ⟨hkeys, hle, -⟩ := hincludes ds _ _ _ _ (List.prefix_refl ds) hrun hrun'
  exact ⟨hcovers, htimely 250, htimely 400, hits, hits', c, c', hrun, hrun', hkeys, hle⟩

end Cache

end ResultCache
