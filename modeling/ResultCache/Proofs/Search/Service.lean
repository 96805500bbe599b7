/-
A cache in service: searches, pulls on the rankers they returned, in any order and for as long as
anyone likes, lookups, and the calls of whoever runs the cache. A `Client` is what a search has
returned and what has been pulled from it. A request changes what the cache holds in few ways
(`Service.serve_mirrors`): it drops entries, or it is a pull that completes a record.
-/
import ResultCache.Proofs.Ranker.Listing
import ResultCache.Proofs.Ranker.Offering
import ResultCache.Search

namespace ResultCache

universe u

/-! ## Queries and rankers -/

/-- What decides which matches a query has. -/
structure Identity where
  index : Int64
  query : Query
  /-- The signature of the sorting schema. -/
  signature : UInt64
  deriving DecidableEq, Repr

def Identity.fingerprint (hash : Hasher) (i : Identity) : Fingerprint :=
  Fingerprint.ofQuery hash i.index i.query i.signature

/-- What a search on an index asks for, sorted under a schema. -/
def Identity.of (hash : Hasher) (index : Int64) (query : Query) (schema : Schema) : Identity :=
  ⟨index, query, schema.signature hash⟩

/-- Of these queries, those that differ have fingerprints that differ. -/
def Identifies (hash : Hasher) (known : List Identity) : Prop :=
  ∀ i ∈ known, ∀ j ∈ known, i.fingerprint hash = j.fingerprint hash → i = j

instance (hash : Hasher) (known : List Identity) : Decidable (Identifies hash known) :=
  inferInstanceAs (Decidable
    (∀ i ∈ known, ∀ j ∈ known, i.fingerprint hash = j.fingerprint hash → i = j))

variable {σ : Type u}

/-- The matches that a pull takes out of a ranker that serves a query. -/
def Served.taken [Ranker σ] [Ranker.Bounded σ] (hash : Hasher) (p : Pull) (now : Moment)
    (cache : Cache) : Served σ → List Match
  | .replay r => Ranker.taken p r
  | .live s => Ranker.taken p s
  | .recorded r => r.taken hash ⟨p, now, cache⟩

/-! ## Searches -/

namespace Cache

variable {hash : Hasher} {now : Moment} {index : Int64} {query : Query} {schema : Schema}
  {live : Unit → Except CacheError σ} {c : Cache}

/-- A search leaves the cache as the lookup does that it begins with. -/
theorem search_cache :
    (c.search hash now index query schema live).2 =
      (c.lookup hash now.wall index query schema).2 := by
  unfold search
  rcases c.lookup hash now.wall index query schema with ⟨f | _ | e, c'⟩ <;> rfl

theorem search_hit {e : Entry} {c' : Cache}
    (h : c.lookup hash now.wall index query schema = (.ok (some e), c')) (hindex : e.index = index) :
    c.search hash now index query schema live =
      (.ok ⟨.ok (.replay (Replay.start e)), false⟩, c') := by
  unfold search
  rw [h]
  dsimp only
  rw [Replay.startFor, if_pos hindex]
  rfl

theorem search_miss {c' : Cache}
    (h : c.lookup hash now.wall index query schema = (.ok none, c')) :
    c.search hash now index query schema live =
      (.ok ⟨(live ()).map fun s => c'.serveLive now index query schema s, true⟩, c') := by
  unfold search
  rw [h]

theorem serveLive_recorded {l : σ} (h : c.config.isEnabled = true) :
    c.serveLive now index query schema l =
      .recorded (Recorder.start l (Draft.start index) query schema now.steady) := by
  have hbuild : c.policy.shouldBuild none = true := by
    simp [policy, Policy.ofConfig, Policy.shouldBuild, h]
  unfold serveLive draft?
  rw [if_pos hbuild]

theorem lookup_empty {now : Instant} (h : c.slab = Slab.empty) :
    c.lookup hash now index query schema = (.ok none, c.countMiss) := by
  have hnone : ∀ key, c.slab.find? key = none := by
    intro key
    rw [h, Slab.find?, show Slab.empty.keys[key]? = none from Std.HashMap.getElem?_empty]
    rfl
  exact find_absent (by rw [hnone, ite_self])

/-- Looking a query up is looking its fingerprint up on the list. -/
theorem Mirrors.lookup {m : Shelf} (h : c.Mirrors m)
    (hspan : Shelf.endless m.config.ttlSecs = false) (hash : Hasher) (now : Instant) (index : Int64)
    (query : Query) (schema : Schema) :
    let f := Fingerprint.ofQuery hash index query (schema.signature hash)
    ∃ c', c.lookup hash now index query schema =
        (.ok (m.find now index f.key f.filterHashes).1, c') ∧
      c'.Mirrors (m.find now index f.key f.filterHashes).2 := by
  intro f
  have hflows : Shelf.stalls (.find now index f.key f.filterHashes) m = false := by
    simp [Shelf.stalls, hspan]
  exact ⟨_, Prod.ext (h.find hflows).1 rfl, (h.find hflows).2⟩

end Cache

/-! ## Requests -/

/-- A search that was answered: for what, with which ranker, and what has been taken from it. -/
structure Client (σ : Type u) where
  identity : Identity
  ranker : Served σ
  taken : List Match := []

/-- A request, at a time of both clocks, which need not agree with those of other requests. -/
inductive Request (σ : Type u) where
  /-- A search; `live` is what its live ranker comes to, should it be asked for. -/
  | search (now : Moment) (index : Int64) (query : Query) (schema : Schema)
      (live : Except CacheError σ)
  /-- A pull on the ranker of a client. -/
  | pull (client : Nat) (p : Pull) (now : Moment)
  | lookup (now : Instant) (index : Int64) (query : Query) (schema : Schema)
  | configure (config : Config)
  | invalidate (index : Int64)
  | clear

/-- A cache and its clients, in the order of their searches. -/
structure Service (σ : Type u) where
  cache : Cache
  clients : List (Client σ) := []

namespace Service

def create (config : Config) : Service σ := { cache := Cache.create config }

/-- A search that returned a ranker makes a client. -/
def enlist (i : Identity) (result : Except Fault (SearchOutcome σ)) (clients : List (Client σ)) :
    List (Client σ) :=
  match result with
  | .ok ⟨.ok ranker, _⟩ => clients ++ [{ identity := i, ranker }]
  | _ => clients

variable [Ranker σ] [Ranker.Bounded σ]

def serve (hash : Hasher) (r : Request σ) (s : Service σ) : Service σ :=
  match r with
  | .search now index query schema live =>
    { cache := (s.cache.search hash now index query schema fun _ => live).2
      clients := enlist (.of hash index query schema)
        (s.cache.search hash now index query schema fun _ => live).1 s.clients }
  | .pull k p now =>
    match s.clients[k]? with
    | none => s
    | some c =>
      { cache := (c.ranker.pull hash p now s.cache).2.2
        clients := s.clients.set k { c with
          ranker := (c.ranker.pull hash p now s.cache).2.1
          taken := c.taken ++ c.ranker.taken hash p now s.cache } }
  | .lookup now index query schema =>
    { s with cache := (s.cache.lookup hash now index query schema).2 }
  | .configure config => { s with cache := s.cache.configure config }
  | .invalidate index => { s with cache := (s.cache.invalidate index).2 }
  | .clear => { s with cache := s.cache.clear }

/-- The service after some requests. -/
def run (hash : Hasher) (rs : List (Request σ)) (s : Service σ) : Service σ :=
  rs.foldl (fun s r => s.serve hash r) s

theorem run_cons (hash : Hasher) (r : Request σ) (rs : List (Request σ)) (s : Service σ) :
    s.run hash (r :: rs) = (s.serve hash r).run hash rs := rfl

theorem run_append (hash : Hasher) (rs rs' : List (Request σ)) (s : Service σ) :
    s.run hash (rs ++ rs') = (s.run hash rs).run hash rs' := List.foldl_append

variable {hash : Hasher} {s : Service σ} {m : Shelf}

/-! ## What a request does to the clients -/

/-- A client is as it was before a request, or was pulled by it, or is made by it. -/
theorem serve_clients {r : Request σ} {k : Nat} {c' : Client σ}
    (h : (s.serve hash r).clients[k]? = some c') :
    s.clients[k]? = some c' ∨
    (∃ p now c, r = .pull k p now ∧ s.clients[k]? = some c ∧ c' = { c with
        ranker := (c.ranker.pull hash p now s.cache).2.1
        taken := c.taken ++ c.ranker.taken hash p now s.cache }) ∨
    (k = s.clients.length ∧ ∃ now index query schema live ranker called,
      r = .search now index query schema live ∧
      (s.cache.search hash now index query schema fun _ => live).1 = .ok ⟨.ok ranker, called⟩ ∧
      c' = { identity := .of hash index query schema, ranker }) := by
  cases r with
  | lookup now index query schema => exact .inl h
  | configure config => exact .inl h
  | invalidate index => exact .inl h
  | clear => exact .inl h
  | pull j p now =>
    unfold serve at h
    cases hj : s.clients[j]? with
    | none =>
      simp only [hj] at h
      exact .inl h
    | some c =>
      simp only [hj, List.getElem?_set] at h
      split at h
      · rename_i hjk
        subst hjk
        split at h
        · cases h
          exact .inr (.inl ⟨p, now, c, rfl, hj, rfl⟩)
        · cases h
      · exact .inl h
  | search now index query schema live =>
    have hclients : (s.serve hash (.search now index query schema live)).clients =
      enlist (.of hash index query schema)
        (s.cache.search hash now index query schema fun _ => live).1 s.clients := rfl
    rw [hclients] at h
    unfold enlist at h
    split at h
    · rename_i ranker called hsearch
      rw [List.getElem?_append] at h
      split at h
      · exact .inl h
      · -- the new client comes behind all others
        rename_i hlt
        obtain ⟨hk, rfl⟩ : k - s.clients.length = 0 ∧ _ = c' := by
          simpa [List.getElem?_singleton] using h
        exact .inr (.inr
          ⟨by omega, now, index, query, schema, live, ranker, called, rfl, hsearch, rfl⟩)
    · exact .inl h

theorem serve_search_hit (s : Service σ) (now : Moment) {index : Int64} {query : Query}
    {schema : Schema} {live : Except CacheError σ} {e : Entry} {c : Cache}
    (h : s.cache.lookup hash now.wall index query schema = (.ok (some e), c))
    (hindex : e.index = index) :
    s.serve hash (.search now index query schema live) =
      { cache := c
        clients := s.clients ++ [{
          identity := .of hash index query schema
          ranker := .replay (Replay.start e) }] } := by
  show Service.mk _ _ = _
  rw [Cache.search_hit h hindex]
  rfl

theorem serve_search_miss (s : Service σ) (now : Moment) {index : Int64} {query : Query}
    {schema : Schema} {l : σ} {c : Cache}
    (h : s.cache.lookup hash now.wall index query schema = (.ok none, c))
    (hon : c.config.isEnabled = true) :
    s.serve hash (.search now index query schema (.ok l)) =
      { cache := c
        clients := s.clients ++ [{
          identity := .of hash index query schema
          ranker := .recorded (Recorder.start l (Draft.start index) query schema now.steady) }] } := by
  show Service.mk _ _ = _
  rw [Cache.search_miss h, ← Cache.serveLive_recorded hon]
  rfl

/-! ## Pulls on a recorder -/

section

variable {k : Nat} {i : Identity} {r : Recorder σ} {ms : List Match} {inner : σ}

/-- A match that is pulled from a recorder goes onto its record. -/
theorem serve_pull_noted {m : Match} (now : Moment)
    (hk : s.clients[k]? = some ⟨i, .recorded r, ms⟩)
    (hnext : Ranker.nextMatch r.inner = (.ok (some m), inner)) :
    s.serve hash (.pull k .one now) =
      { cache := s.cache
        clients := s.clients.set k ⟨i,
          .recorded { r with inner, draft := r.draft.map (Draft.pushAll [m]) }, ms ++ [m]⟩ } := by
  have hrecording : Ranker.nextMatch (Recording.mk r s.cache hash now) = (.ok (some m),
      ⟨{ r with inner, draft := r.draft.map (Draft.pushAll [m]) }, s.cache, hash, now⟩) := by
    show Recording.nextMatch _ = _
    rw [Recording.nextMatch, hnext]
    rfl
  have htaken : Served.taken hash .one now s.cache (.recorded r) = [m] := Ranker.taken_one hrecording
  simp only [serve, hk, htaken, Served.pull, Recorder.pull, Ranker.pull_one hrecording]

/-- The end of its ranker completes a record. -/
theorem serve_pull_completed {d : Draft} (now : Moment)
    (hk : s.clients[k]? = some ⟨i, .recorded r, ms⟩) (hdraft : r.draft = some d)
    (hnext : Ranker.nextMatch r.inner = (.ok none, inner)) :
    let offered := s.cache.store hash r.query
      (d.finish now.wall (now.steady - r.startedAt).toNat) r.schema
    s.serve hash (.pull k .one now) =
      { cache := offered.2
        clients := s.clients.set k ⟨i,
          .recorded { r with inner, draft := none, stored := some offered.1 }, ms⟩ } := by
  intro offered
  have hrecording : Ranker.nextMatch (Recording.mk r s.cache hash now) = (.ok none,
      ⟨{ r with inner, draft := none, stored := some offered.1 }, offered.2, hash, now⟩) := by
    show Recording.nextMatch _ = _
    simp only [Recording.nextMatch, hnext, Recording.complete, Recording.withInner, hdraft, offered]
  have htaken : Served.taken hash .one now s.cache (.recorded r) = [] := Ranker.taken_one hrecording
  simp only [serve, hk, htaken, Served.pull, Recorder.pull, Ranker.pull_one hrecording,
    List.append_nil]

end

/-! ## What a request does to the cache -/

/-- A pull completes the record of a client, and the cache takes it as the entry `e`. -/
def Publishes (hash : Hasher) (r : Request σ) (k : Nat) (e : Entry) (s : Service σ) : Prop :=
  ∃ p now c recorder, r = .pull k p now ∧ s.clients[k]? = some c ∧
    c.ranker = .recorded recorder ∧ recorder.Publishes hash ⟨p, now, s.cache⟩ e

omit [Ranker σ] [Ranker.Bounded σ] in
/-- An operation that adds nothing leaves a part of what was held. -/
theorem operation_mirrors (h : s.cache.Mirrors m) (op : Operation) (hop : ∀ e, op ≠ .add e) :
    ∃ m', (s.cache.serve op).2.Mirrors m' ∧ (m'.config = m.config ∨ op = .configure m'.config) ∧
      ∀ e ∈ m'.entries, e ∈ m.entries ∧ ∀ index, op = .invalidate index → e.index ≠ index := by
  refine ⟨_, (h.serve op).2, ?_, fun e he => ?_⟩
  · by_cases hconfig : ∃ config, op = .configure config
    · obtain ⟨config, rfl⟩ := hconfig
      exact .inr rfl
    · exact .inl (Shelf.config_serveOrStall fun config hop => hconfig ⟨config, hop⟩)
  · rcases Shelf.mem_serveOrStall he with h | ⟨hadd, -⟩
    · exact h
    · exact absurd hadd (hop e)

theorem serve_mirrors [LawfulRanker σ] (hash : Hasher) (h : s.cache.Mirrors m) (r : Request σ) :
    ∃ m', (s.serve hash r).cache.Mirrors m' ∧ (m'.config = m.config ∨ r = .configure m'.config) ∧
      ∀ e ∈ m'.entries, (e ∈ m.entries ∧ ∀ index, r = .invalidate index → e.index ≠ index) ∨
        ∃ k, s.Publishes hash r k e := by
  have hfind : ∀ (now : Instant) (index : Int64) (query : Query) (schema : Schema),
      ∃ m', (s.cache.lookup hash now index query schema).2.Mirrors m' ∧ m'.config = m.config ∧
        ∀ e ∈ m'.entries, e ∈ m.entries := by
    intro now index query schema
    obtain ⟨m', hm', hconfig, hentries⟩ := operation_mirrors h
      (.find now index _
        (Fingerprint.ofQuery hash index query (schema.signature hash)).filterHashes) (by simp)
    exact ⟨m', hm', hconfig.resolve_right (by simp), fun e he => (hentries e he).1⟩
  cases r with
  | search now index query schema live =>
    obtain ⟨m', hm', hconfig, hentries⟩ := hfind now.wall index query schema
    have hcache : (s.serve hash (.search now index query schema live)).cache =
        (s.cache.lookup hash now.wall index query schema).2 := Cache.search_cache
    rw [← hcache] at hm'
    exact ⟨m', hm', .inl hconfig, fun e he => .inl ⟨hentries e he, by simp⟩⟩
  | lookup now index query schema =>
    obtain ⟨m', hm', hconfig, hentries⟩ := hfind now index query schema
    exact ⟨m', hm', .inl hconfig, fun e he => .inl ⟨hentries e he, by simp⟩⟩
  | configure config =>
    obtain ⟨m', hm', hconfig, hentries⟩ := operation_mirrors h (.configure config) (by simp)
    refine ⟨m', hm', hconfig.imp_right fun hop => by cases hop; rfl, fun e he => .inl ?_⟩
    exact ⟨(hentries e he).1, by simp⟩
  | invalidate index =>
    obtain ⟨m', hm', hconfig, hentries⟩ := operation_mirrors h (.invalidate index) (by simp)
    refine ⟨m', hm', .inl (hconfig.resolve_right (by simp)), fun e he => .inl ?_⟩
    refine ⟨(hentries e he).1, ?_⟩
    rintro _ ⟨⟩
    exact (hentries e he).2 index rfl
  | clear =>
    obtain ⟨m', hm', hconfig, hentries⟩ := operation_mirrors h .clear (by simp)
    refine ⟨m', hm', .inl (hconfig.resolve_right (by simp)), fun e he => .inl ?_⟩
    exact ⟨(hentries e he).1, by simp⟩
  | pull k p now =>
    cases hk : s.clients[k]? with
    | none =>
      have hserve : s.serve hash (.pull k p now) = s := by simp [serve, hk]
      rw [hserve]
      exact ⟨m, h, .inl rfl, fun e he => .inl ⟨he, by simp⟩⟩
    | some c =>
      have hserve : (s.serve hash (.pull k p now)).cache =
          (c.ranker.pull hash p now s.cache).2.2 := by
        simp [serve, hk]
      rw [hserve]
      cases hranker : c.ranker with
      | replay r => exact ⟨m, h, .inl rfl, fun e he => .inl ⟨he, by simp⟩⟩
      | live l => exact ⟨m, h, .inl rfl, fun e he => .inl ⟨he, by simp⟩⟩
      | recorded recorder =>
        obtain ⟨m', hm', hconfig, hentries⟩ :=
          Recorder.visit_mirrors (v := ⟨p, now, s.cache⟩) h recorder
        refine ⟨m', hm', .inl hconfig, fun e he => ?_⟩
        refine (hentries e he).imp (fun he => ⟨he, by simp⟩) fun hpub => ?_
        exact ⟨k, p, now, c, recorder, rfl, hk, hranker, hpub⟩

end Service

end ResultCache
