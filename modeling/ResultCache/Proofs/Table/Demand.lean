/-
Workloads as demands. An entry is fetched: it is looked up, and where the lookup misses it is made
and added; or an index is invalidated, or everything is cleared. `meetAll` meets demands one after
another on a cache and counts the hits. `Shelf.Meets` says what a demand does to the list of a cache,
as long as no entry held is too old and all entries of a key agree (`Catalogue`).
-/
import ResultCache.Proofs.Table.Contents
import ResultCache.Proofs.Table.Counting

namespace ResultCache

/-! ## Demands -/

/-- A step of a workload. -/
inductive Demand where
  /-- The entry of a key is wanted; where a lookup does not find it, `e` is made and added. -/
  | fetch (now : Instant) (e : Entry)
  | invalidate (index : Int64)
  | clear

/-- What all entries of a key have in common. -/
structure Catalogue where
  index : UInt64 → Int64
  filterHashes : UInt64 → List UInt64
  size : UInt64 → Nat

namespace Catalogue

/-- The entry is as the catalogue says for its key. -/
structure Lists (cat : Catalogue) (e : Entry) : Prop where
  index : e.index = cat.index e.key
  filterHashes : e.filterHashes = cat.filterHashes e.key
  size : e.sizeBytes = cat.size e.key

/-- What is fetched is as the catalogue says, and within the budget. -/
def Covers (cat : Catalogue) (budget : Nat) : Demand → Prop
  | .fetch _ e => cat.Lists e ∧ e.sizeBytes ≤ budget
  | _ => True

theorem Covers.mono {cat : Catalogue} {budget budget' : Nat} {d : Demand} (h : cat.Covers budget d)
    (hle : budget ≤ budget') : cat.Covers budget' d := by
  cases d with
  | fetch now e => exact ⟨h.1, Nat.le_trans h.2 hle⟩
  | _ => trivial

end Catalogue

namespace Cache

/-- Looks an entry up, and adds it where the lookup misses. Tells whether it was a hit. -/
def fetch (now : Instant) (e : Entry) (c : Cache) : Except Fault (Bool × Cache) :=
  match c.find now e.index e.key e.filterHashes with
  | (.error f, _) => .error f
  | (.ok (some _), c) => .ok (true, c)
  | (.ok none, c) => .ok (false, (c.add e).2)

def meet : Demand → Cache → Except Fault (Bool × Cache)
  | .fetch now e, c => c.fetch now e
  | .invalidate index, c => .ok (false, (c.invalidate index).2)
  | .clear, c => .ok (false, c.clear)

/-- Meets demands one after another and counts the hits; a lookup that faults is the end. -/
def meetAll : List Demand → Cache → Except Fault (Nat × Cache)
  | [], c => .ok (0, c)
  | d :: ds, c => do
    let (hit, c) ← c.meet d
    let (hits, c) ← meetAll ds c
    .ok (hit.toNat + hits, c)

/-- No entry held is too old when one is fetched. -/
def FreshFor (c : Cache) : Demand → Prop
  | .fetch now _ => ∀ a ∈ c.entries, a.expired now c.config.ttlSecs ≠ .ok true
  | _ => True

/-- At each of some demands, no entry held is too old. -/
def Timely : List Demand → Cache → Prop
  | [], _ => True
  | d :: ds, c => c.FreshFor d ∧ ∀ hit c', c.meet d = .ok (hit, c') → Timely ds c'

theorem Timely.of_prefix {before ds : List Demand} (hp : before <+: ds) : ∀ {c : Cache},
    c.Timely ds → c.Timely before := by
  induction before generalizing ds with
  | nil => exact fun _ => trivial
  | cons d before ih =>
    obtain ⟨after, rfl⟩ := hp
    rintro c ⟨hfresh, hrest⟩
    exact ⟨hfresh, fun hit c' hmeet => ih (List.prefix_append _ _) (hrest hit c' hmeet)⟩

theorem meetAll_cons {d : Demand} {ds : List Demand} {c c' : Cache} {hits : Nat} :
    c.meetAll (d :: ds) = .ok (hits, c') ↔ ∃ hit c₁ rest, c.meet d = .ok (hit, c₁) ∧
      c₁.meetAll ds = .ok (rest, c') ∧ hits = hit.toNat + rest := by
  rw [meetAll, bind_eq_ok]
  constructor
  · rintro ⟨⟨hit, c₁⟩, hmeet, h⟩
    obtain ⟨⟨rest, c₂⟩, hrest, h⟩ := bind_eq_ok.1 h
    cases h
    exact ⟨hit, c₁, rest, hmeet, hrest, rfl⟩
  · rintro ⟨hit, c₁, rest, hmeet, hrest, rfl⟩
    exact ⟨(hit, c₁), hmeet, bind_eq_ok.2 ⟨(rest, c'), hrest, rfl⟩⟩

end Cache

/-! ## Demands met by a list -/

namespace Shelf

section

variable {m : Shelf} {now : Instant} {index : Int64} {key : UInt64} {filterHashes : List UInt64}

theorem find_of_absent (h : m.held? key = none) :
    m.find now index key filterHashes = (none, m) := by
  unfold find
  rw [h]
  cases m.config.isEnabled <;> rfl

theorem add_of_fits {e : Entry} (hon : m.config.isEnabled = true)
    (hfits : e.sizeBytes ≤ m.config.budget) :
    m.add e =
      (true, { m with entries := e :: fitting (m.config.budget - e.sizeBytes) (m.others e.key) }) :=
  if_pos ⟨hon, hfits⟩

end

/-- What meeting a demand does to a shelf on which nothing is too old, and whether it is a hit. -/
inductive Meets (m : Shelf) : Demand → Bool → Shelf → Prop where
  | found {now : Instant} {e a : Entry} (h : m.held? e.key = some a) :
      Meets m (.fetch now e) true { m with entries := a :: m.others e.key }
  | made {now : Instant} {e : Entry} (h : m.held? e.key = none) :
      Meets m (.fetch now e) false
        { m with entries := e :: fitting (m.config.budget - e.sizeBytes) (m.others e.key) }
  | invalidated (index : Int64) : Meets m (.invalidate index) false (m.invalidate index).2
  | cleared : Meets m .clear false m.clear

/-- Everything on the shelf is as a catalogue says. -/
def Listed (cat : Catalogue) (m : Shelf) : Prop := ∀ e ∈ m.entries, cat.Lists e

variable {cat : Catalogue} {m m' : Shelf} {d : Demand} {hit : Bool}

theorem Listed.others (hm : m.Listed cat) (key : UInt64) : ∀ e ∈ m.others key, cat.Lists e :=
  fun e he => hm e (List.mem_filter.1 he).1

theorem Meets.config (h : m.Meets d hit m') : m'.config = m.config := by
  cases h <;> rfl

theorem Meets.listed (h : m.Meets d hit m') (hm : m.Listed cat) (hd : cat.Covers m.config.budget d) :
    m'.Listed cat := by
  intro e he
  cases h with
  | found hheld =>
    rcases List.mem_cons.1 he with rfl | he
    · exact hm _ (of_held? hheld).1
    · exact hm.others _ e he
  | made =>
    rcases List.mem_cons.1 he with rfl | he
    · exact hd.1
    · exact hm.others _ e ((fitting_start _ _).subset he)
  | invalidated => exact hm e (List.mem_filter.1 he).1
  | cleared => cases he

/-- A lookup as the catalogue says finds the entry of its key if there is one. -/
theorem find_listed {now : Instant} {e : Entry} (hon : m.config.isEnabled = true)
    (hm : m.Listed cat) (he : cat.Lists e)
    (hage : ∀ a, m.held? e.key = some a → outlived now m.config.ttlSecs a = false) :
    (m.held? e.key = none ∧ m.find now e.index e.key e.filterHashes = (none, m)) ∨
      ∃ a, m.held? e.key = some a ∧ m.find now e.index e.key e.filterHashes =
        (some a, { m with entries := a :: m.others e.key }) := by
  cases hheld : m.held? e.key with
  | none => exact .inl ⟨rfl, find_of_absent hheld⟩
  | some a =>
    obtain ⟨hmem, hkey⟩ := of_held? hheld
    have ha := hm a hmem
    have hmatch : a.index = e.index ∧ a.filterHashes = e.filterHashes := by
      rw [ha.index, ha.filterHashes, hkey, he.index, he.filterHashes]
      exact ⟨rfl, rfl⟩
    exact .inr ⟨a, rfl, find_of_held hheld hon (hage a hheld) hmatch⟩

end Shelf

/-! ## Demands met by a cache -/

namespace Cache

variable {cat : Catalogue} {c c' : Cache} {m m' : Shelf} {d : Demand} {ds : List Demand} {hit : Bool}

theorem fetch_cases {now : Instant} {e : Entry} (h : c.fetch now e = .ok (hit, c')) :
    (∃ a, c.find now e.index e.key e.filterHashes = (.ok (some a), c') ∧ hit = true) ∨
      ∃ c₁, c.find now e.index e.key e.filterHashes = (.ok none, c₁) ∧ hit = false ∧
        c' = (c₁.add e).2 := by
  unfold fetch at h
  rcases hf : c.find now e.index e.key e.filterHashes with ⟨f | _ | a, c₁⟩
  · rw [hf] at h
    cases h
  · rw [hf] at h
    cases h
    exact .inr ⟨c₁, rfl, rfl, rfl⟩
  · rw [hf] at h
    cases h
    exact .inl ⟨a, rfl, rfl⟩

/-- A hit is counted, and nothing else is counted as one. -/
theorem meet_hits (h : c.meet d = .ok (hit, c')) : c'.hits = c.hits + hit.toNat.toUInt64 := by
  cases d with
  | fetch now e =>
    have hfind := (serve_counters (.find now e.index e.key e.filterHashes) c).1
    rcases fetch_cases h with ⟨a, hf, rfl⟩ | ⟨c₁, hf, rfl, rfl⟩
    · simpa [serve, hf, Answer.isHit] using hfind
    · have hadd := (serve_counters (.add e) c₁).1
      simp [serve, hf, Answer.isHit] at hfind hadd ⊢
      rw [hadd, hfind]
  | invalidate index =>
    cases h
    exact (UInt64.add_zero _).symm
  | clear =>
    cases h
    exact (UInt64.add_zero _).symm

theorem meetAll_hits : ∀ {ds : List Demand} {c : Cache} {hits : Nat},
    c.meetAll ds = .ok (hits, c') → c'.hits = c.hits + hits.toUInt64
  | [], c, hits, h => by
    cases h
    exact (UInt64.add_zero _).symm
  | d :: ds, c, hits, h => by
    obtain ⟨hit, c₁, rest, hmeet, hrest, rfl⟩ := meetAll_cons.1 h
    rw [meetAll_hits hrest, meet_hits hmeet, toUInt64_add, UInt64.add_assoc]

namespace Mirrors

/-- A demand brings nothing but what it fetches, and changes no configuration. -/
theorem meet_mirrors (h : c.Mirrors m) (hmeet : c.meet d = .ok (hit, c')) :
    ∃ m', c'.Mirrors m' ∧ m'.config = m.config ∧
      ∀ a ∈ m'.entries, a ∈ m.entries ∨ ∃ now, d = .fetch now a := by
  cases d with
  | fetch now e =>
    have hfind := (h.serve (.find now e.index e.key e.filterHashes)).2
    have hconfig : (m.serveOrStall (.find now e.index e.key e.filterHashes)).2.config = m.config :=
      Shelf.config_serveOrStall (by simp)
    have hmem : ∀ a ∈ (m.serveOrStall (.find now e.index e.key e.filterHashes)).2.entries,
        a ∈ m.entries := fun a ha => by
      rcases Shelf.mem_serveOrStall ha with ⟨ha, -⟩ | ⟨hop, -⟩
      · exact ha
      · cases hop
    rcases fetch_cases hmeet with ⟨a, hf, -⟩ | ⟨c₁, hf, -, rfl⟩
    · rw [Cache.serve, hf] at hfind
      exact ⟨_, hfind, hconfig, fun a ha => .inl (hmem a ha)⟩
    · rw [Cache.serve, hf] at hfind
      refine ⟨_, (hfind.add e).2, (Shelf.config_add _ _).trans hconfig, fun a ha => ?_⟩
      rcases Shelf.mem_add ha with ha | ⟨rfl, -⟩
      · exact .inl (hmem a ha)
      · exact .inr ⟨now, rfl⟩
  | invalidate index =>
    cases hmeet
    exact ⟨_, (h.invalidate index).2, rfl, fun a ha => .inl (List.mem_filter.1 ha).1⟩
  | clear =>
    cases hmeet
    exact ⟨_, h.clear, rfl, fun a ha => by cases ha⟩

/-- A demand is met if the lifetime in force can be expressed. -/
theorem meet_answers (h : c.Mirrors m) (hspan : Shelf.endless m.config.ttlSecs = false) (d : Demand) :
    ∃ hit c', c.meet d = .ok (hit, c') := by
  cases d with
  | fetch now e =>
    obtain ⟨found, hfound⟩ : ∃ found, (c.find now e.index e.key e.filterHashes).1 = .ok found :=
      h.find_answers hspan
    show ∃ hit c', c.fetch now e = .ok (hit, c')
    unfold fetch
    rcases hf : c.find now e.index e.key e.filterHashes with ⟨f | _ | a, c₁⟩
    · rw [hf] at hfound
      cases hfound
    · exact ⟨_, _, rfl⟩
    · exact ⟨_, _, rfl⟩
  | invalidate index => exact ⟨_, _, rfl⟩
  | clear => exact ⟨_, _, rfl⟩

theorem meetAll_answers : ∀ {ds : List Demand} {c : Cache} {m : Shelf}, c.Mirrors m →
    Shelf.endless m.config.ttlSecs = false → ∃ hits c', c.meetAll ds = .ok (hits, c')
  | [], c, m, _, _ => ⟨0, c, rfl⟩
  | d :: ds, c, m, h, hspan => by
    obtain ⟨hit, c₁, hmeet⟩ := h.meet_answers hspan d
    obtain ⟨m₁, h₁, hconfig, -⟩ := h.meet_mirrors hmeet
    obtain ⟨rest, c', hrest⟩ : ∃ rest c', c₁.meetAll ds = .ok (rest, c') :=
      meetAll_answers h₁ (by rwa [hconfig])
    exact ⟨_, c', meetAll_cons.2 ⟨hit, c₁, rest, hmeet, hrest, rfl⟩⟩

/-- What is not too old at any demand, when it is held or fetched, never is too old. -/
theorem timely (fresh : Entry → Prop) : ∀ {ds : List Demand} {c : Cache} {m : Shelf},
    c.Mirrors m → (∀ a ∈ m.entries, fresh a) →
    (∀ now e, .fetch now e ∈ ds →
      fresh e ∧ ∀ a, fresh a → a.expired now m.config.ttlSecs ≠ .ok true) → c.Timely ds
  | [], _, _, _, _, _ => trivial
  | d :: ds, c, m, h, hheld, hfetched => by
    constructor
    · cases d with
      | fetch now e =>
        intro a ha
        rw [h.shows.entries] at ha
        rw [h.config]
        exact (hfetched now e (List.mem_cons_self ..)).2 a (hheld a ha)
      | _ => trivial
    · intro hit c' hmeet
      obtain ⟨m', h', hconfig, hmem⟩ := h.meet_mirrors hmeet
      refine timely fresh h' (fun a ha => ?_) fun now e he => ?_
      · rcases hmem a ha with ha | ⟨now, rfl⟩
        · exact hheld a ha
        · exact (hfetched now a (List.mem_cons_self ..)).1
      · rw [hconfig]
        exact hfetched now e (List.mem_cons_of_mem _ he)

/-- While no entry held is too old, a demand does to the list what it is said to do. -/
theorem meets (h : c.Mirrors m) (hon : m.config.isEnabled = true) (hlisted : m.Listed cat)
    (hd : cat.Covers m.config.budget d) (hfresh : c.FreshFor d) (hmeet : c.meet d = .ok (hit, c')) :
    ∃ m', c'.Mirrors m' ∧ m.Meets d hit m' := by
  cases d with
  | fetch now e =>
    obtain ⟨he, hfits⟩ := hd
    have hage : Shelf.stalls (.find now e.index e.key e.filterHashes) m = false →
        ∀ a, m.held? e.key = some a → Shelf.outlived now m.config.ttlSecs a = false := by
      intro hs a hheld
      have hend : Shelf.endless m.config.ttlSecs = false := by
        simpa [Shelf.stalls, hon, hheld] using hs
      have hnot := hfresh a (h.shows.entries ▸ (Shelf.of_held? hheld).1)
      rw [h.config, Entry.expired_eq_outlived hend] at hnot
      simpa using hnot
    rcases fetch_cases hmeet with ⟨a, hf, rfl⟩ | ⟨c₁, hf, rfl, rfl⟩
    · obtain ⟨hs, hanswer⟩ := h.find_ok (congrArg Prod.fst hf)
      have hm := (h.find hs).2
      rcases Shelf.find_listed hon hlisted he (hage hs) with ⟨-, hfind⟩ | ⟨a', hheld, hfind⟩
      · rw [hfind] at hanswer
        cases hanswer
      · rw [hf, hfind] at hm
        exact ⟨_, hm, .found hheld⟩
    · obtain ⟨hs, hanswer⟩ := h.find_ok (congrArg Prod.fst hf)
      have hm := (h.find hs).2
      rcases Shelf.find_listed hon hlisted he (hage hs) with ⟨hheld, hfind⟩ | ⟨a', -, hfind⟩
      · rw [hf, hfind] at hm
        have hadd := (hm.add e).2
        rw [Shelf.add_of_fits hon hfits] at hadd
        exact ⟨_, hadd, .made hheld⟩
      · rw [hfind] at hanswer
        cases hanswer
  | invalidate index =>
    cases hmeet
    exact ⟨_, (h.invalidate index).2, .invalidated index⟩
  | clear =>
    cases hmeet
    exact ⟨_, h.clear, .cleared⟩

end Mirrors

end Cache

end ResultCache
