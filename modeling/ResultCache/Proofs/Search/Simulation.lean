/-
Simulated workloads. A step is a search whose ranker is asked for all it has, so what holds of a cache
in service holds of the cache of a simulation: every query comes out as its live ranker delivers it
(`SimulationRun.Sound`). Every step looks up once, and the cache holds one entry a query at most.
-/
import Mathlib.Data.List.Perm.Subperm
import ResultCache.Proofs.Number.Decimal
import ResultCache.Proofs.Query.Fingerprints
import ResultCache.Proofs.Search.Transparency
import ResultCache.Proofs.Table.Counting
import ResultCache.CommandLine.Run

namespace ResultCache

universe u

/-! ## Queries -/

namespace Workload

/-- What a simulated query is to the cache. -/
def identity (hash : Hasher) (w : Workload) (id : UInt64) : Identity :=
  .of hash (w.indexOf id) (request id) schema

theorem request_text (id : UInt64) :
    (request id).text.toList = "term".toList ++ ((decimal (id % 97).toNat).toList ++
      (" term".toList ++ (decimal id.toNat).toList)) := by
  simp [request, String.toList_append]

/-- The text of a query ends with its number. -/
theorem identity_injective (hash : Hasher) (w : Workload) :
    Function.Injective (w.identity hash) := by
  intro a b h
  have htext : (request a).text.toList = (request b).text.toList :=
    congrArg (fun i => i.query.text.toList) h
  rw [request_text, request_text] at htext
  have hspace : ∀ rest : List Char, ∀ c ∈ (" term".toList ++ rest).head?, Digit.ofChar? c = none := by
    rintro rest c ⟨⟩
    rfl
  obtain ⟨-, hrest⟩ :=
    decimal_append_inj (hspace _) (hspace _) (List.append_cancel_left htext)
  have hlast := List.append_cancel_left hrest
  exact UInt64.toNat_inj.1 (decimal_injective (String.toList_inj.1 hlast))

/-- The queries of a workload. -/
def identities (hash : Hasher) (w : Workload) : List Identity :=
  (List.range (max w.distinct 1).toNat).map fun n => w.identity hash n.toUInt64

theorem mem_identities {hash : Hasher} {w : Workload} {i : Identity} :
    i ∈ w.identities hash ↔ ∃ id < max w.distinct 1, w.identity hash id = i := by
  constructor
  · intro h
    obtain ⟨n, hn, rfl⟩ := List.mem_map.1 h
    refine ⟨_, ?_, rfl⟩
    have hlt := List.mem_range.1 hn
    rw [UInt64.lt_iff_toNat_lt]
    exact Nat.lt_of_le_of_lt (Nat.mod_le _ _) hlt
  · rintro ⟨id, hid, rfl⟩
    refine List.mem_map.2 ⟨id.toNat, List.mem_range.2 (UInt64.lt_iff_toNat_lt.1 hid), ?_⟩
    exact congrArg (w.identity hash) (UInt64.ofNat_toNat)

/-- What the live rankers of a workload deliver. -/
noncomputable def listing (hash : Hasher) (w : Workload) (d : Draws) : Identity → Listing :=
  Function.extend (w.identity hash) (fun id => { items := d.live id }) fun _ => { items := [] }

theorem listing_identity (hash : Hasher) (w : Workload) (d : Draws) (id : UInt64) :
    w.listing hash d (w.identity hash id) = { items := d.live id } :=
  (w.identity_injective hash).extend_apply _ _ id

end Workload

/-! ## Collecting -/

section

variable {σ : Type u} [Ranker σ] [Ranker.Bounded σ] [LawfulRanker σ] {hash : Hasher}
  {listing : Identity → Listing} {known : List Identity}

/-- Who asks for all at once gets the whole listing. -/
theorem Served.Delivers.collect {i : Identity} {l : Listing} {ranker : Served σ}
    (h : ranker.Delivers hash i l []) (hending : l.ending = .exhausted) (now : Moment) (c : Cache) :
    (ranker.pull hash .all now c).1 = .all (.ok l.items.toArray) := by
  have hshows := Served.pull_shows hash .all now c ranker
  obtain ⟨-, htells⟩ := h.pull .all now c
  rcases hreply : (ranker.pull hash .all now c).1 with res | ⟨res, out⟩ | ⟨e | out⟩ <;>
    rw [hreply] at hshows htells
  · exact hshows.elim
  · exact hshows.elim
  · obtain ⟨-, hfailing⟩ := htells
    rw [hending] at hfailing
    cases hfailing
  · obtain ⟨hall, -⟩ := htells
    rw [← hall, List.nil_append, ← hshows]

omit [Ranker.Bounded σ] [LawfulRanker σ] in
/-- Without clients, a service keeps what it promises of its cache. -/
theorem Service.Transparent.alone {s : Service σ} (h : s.Transparent hash listing known) :
    (Service.mk s.cache [] : Service σ).Transparent hash listing known :=
  ⟨h.cache, fun k c hk => by cases hk⟩

/-- Who searches for a query and asks for all at once gets its listing. -/
theorem Service.Transparent.search_all {c : Cache}
    (h : (Service.mk c [] : Service σ).Transparent hash listing known)
    (hdistinct : Identifies hash known) {index : Int64} {query : Query} {schema : Schema}
    {l : Listing} (hknown : .of hash index query schema ∈ known)
    (hl : listing (.of hash index query schema) = l) (hending : l.ending = .exhausted) {live : σ}
    (hlive : Ranker.Delivers l [] live) (began ended : Moment) :
    ∃ ranker called c',
      c.search hash began index query schema (fun _ => .ok live) = (.ok ⟨.ok ranker, called⟩, c') ∧
      (ranker.pull hash .all ended c').1 = .all (.ok l.items.toArray) ∧
      (Service.mk (ranker.pull hash .all ended c').2.2 [] : Service σ).Transparent hash listing
        known := by
  have hfair : Request.Fair hash listing (.search began index query schema (.ok live)) := by
    rintro r ⟨⟩
    rwa [hl]
  obtain ⟨⟨result, called⟩, hanswer, hnone⟩ : ∃ outcome,
      (c.search hash began index query schema fun _ => .ok live).1 = .ok outcome ∧
      ∀ e, outcome.ranker = .error e → outcome.liveCalled = true ∧ Except.ok live = .error e :=
    h.search_answers
  cases result with
  | error e =>
    obtain ⟨-, hlive⟩ := hnone e rfl
    cases hlive
  | ok ranker =>
    rcases hsearch : c.search hash began index query schema fun _ => .ok live with ⟨answer, c'⟩
    rw [hsearch] at hanswer
    cases hanswer
    have hdelivers := h.search_delivers hknown hdistinct hfair (congrArg Prod.fst hsearch)
    rw [hl] at hdelivers
    have hsearched : (Service.mk c []).serve hash (.search began index query schema (.ok live)) =
        ⟨c', [{ identity := .of hash index query schema, ranker }]⟩ := by
      show Service.mk _ _ = _
      rw [hsearch]
      rfl
    have hserved := h.serve hdistinct hfair (by rintro i ⟨⟩; exact hknown)
    rw [hsearched] at hserved
    have hpulled := hserved.serve hdistinct (r := .pull 0 .all ended) trivial (by rintro i ⟨⟩)
    exact ⟨ranker, called, c', rfl, hdelivers.collect hending ended c', hpulled.alone⟩

end

/-! ## What the cache counts and holds -/

section

variable {σ : Type u} {hash : Hasher}

/-- A search looks up once. -/
theorem Cache.search_counters {c c' : Cache} {now : Moment} {index : Int64} {query : Query}
    {schema : Schema} {live : Unit → Except CacheError σ} {ranker : Except CacheError (Served σ)}
    {called : Bool}
    (h : c.search hash now index query schema live = (.ok ⟨ranker, called⟩, c')) :
    c'.hits = c.hits + (if called then 0 else 1) ∧
      c'.misses = c.misses + (if called then 1 else 0) := by
  have hserve : c.serve (.find now.wall index
      (Fingerprint.ofQuery hash index query (schema.signature hash)).key
      (Fingerprint.ofQuery hash index query (schema.signature hash)).filterHashes) =
      (.found (c.lookup hash now.wall index query schema).1,
        (c.lookup hash now.wall index query schema).2) := rfl
  obtain ⟨hhits, hmisses, -⟩ := Cache.serve_counters _ c
  rw [hserve] at hhits hmisses
  unfold Cache.search at h
  rcases hl : c.lookup hash now.wall index query schema with ⟨f | _ | e, c₁⟩ <;>
    rw [hl] at h hhits hmisses <;> cases h <;> exact ⟨hhits, hmisses⟩

/-- Storing is no lookup. -/
theorem Cache.store_counters (hash : Hasher) (query : Query) (entry : Entry) (schema : Schema)
    (c : Cache) :
    (c.store hash query entry schema).2.hits = c.hits ∧
      (c.store hash query entry schema).2.misses = c.misses := by
  unfold Cache.store
  split
  · obtain ⟨hhits, hmisses, -⟩ := Cache.serve_counters (.add (entry.withFingerprint
      (Fingerprint.ofQuery hash entry.index query (schema.signature hash)))) c
    exact ⟨hhits.trans (UInt64.add_zero _), hmisses.trans (UInt64.add_zero _)⟩
  · exact ⟨rfl, rfl⟩

/-- Neither is pulling. -/
theorem Served.pull_counters [Ranker σ] [Ranker.Bounded σ] [LawfulRanker σ] (p : Pull)
    (now : Moment) (c : Cache) (ranker : Served σ) :
    (ranker.pull hash p now c).2.2.hits = c.hits ∧
      (ranker.pull hash p now c).2.2.misses = c.misses := by
  cases ranker with
  | replay r => exact ⟨rfl, rfl⟩
  | live l => exact ⟨rfl, rfl⟩
  | recorded r =>
    show (r.visit hash ⟨p, now, c⟩).2.2.hits = c.hits ∧
      (r.visit hash ⟨p, now, c⟩).2.2.misses = c.misses
    rcases r.visit_cache hash ⟨p, now, c⟩ with hsame | ⟨d, -, -, hstore⟩
    · rw [hsame]
      exact ⟨rfl, rfl⟩
    · rw [hstore]
      exact Cache.store_counters _ _ _ _ _

/-- Of one query, one entry is held at most. -/
theorem Service.Transparent.length_le [Ranker σ] {listing : Identity → Listing}
    {known : List Identity} {s : Service σ} (h : s.Transparent hash listing known) :
    s.cache.length ≤ known.length := by
  obtain ⟨m, hm, -, hrecords⟩ := h.cache
  obtain ⟨P, hP, hentries⟩ := hm.slab
  have hkeys : P.map (fun p => p.2.key) ⊆ known.map fun i => (i.fingerprint hash).key := by
    intro key hkey
    obtain ⟨p, hp, rfl⟩ := List.mem_map.1 hkey
    obtain ⟨i, hi, -, hfiled, -⟩ := hrecords p.2 (hentries ▸ List.mem_map_of_mem hp)
    exact List.mem_map.2 ⟨i, hi, congrArg Fingerprint.key hfiled.symm⟩
  calc s.cache.length = (P.map fun p => p.2.key).length := by rw [List.length_map]; exact hP.length
    _ ≤ (known.map fun i => (i.fingerprint hash).key).length :=
      (List.subperm_of_subset hP.distinct hkeys).length_le
    _ = known.length := List.length_map _

end

/-! ## Steps -/

namespace Workload

variable {hash : Hasher} {w : Workload} {d : Draws}

/-- What is assumed of a workload: queries are drawn from its own, a lifetime can be expressed, and
queries that differ have fingerprints that differ. -/
structure Fair (hash : Hasher) (w : Workload) (d : Draws) (config : Config) : Prop where
  drawn : ∀ step, d.query step < max w.distinct 1
  lifetime : Shelf.endless config.ttlSecs = false
  distinct : Identifies hash (w.identities hash)

/-- It is enough that the hash tells the spellings of the queries apart. -/
theorem fair_of_separates {config : Config} (hdrawn : ∀ step, d.query step < max w.distinct 1)
    (hlifetime : Shelf.endless config.ttlSecs = false)
    (h : Separates hash ((w.identities hash).flatMap (Identity.hashed hash))) :
    w.Fair hash d config where
  drawn := hdrawn
  lifetime := hlifetime
  distinct := Identity.identifies_of_separates h

/-- The search that a step makes. -/
def search (hash : Hasher) (w : Workload) (d : Draws) (began : Moment) (step : Nat) (c : Cache) :
    Except Fault (SearchOutcome VectorRanker) × Cache :=
  (w.invalidateDue step c).search hash began (w.indexOf (d.query step)) (request (d.query step))
    schema fun _ => .ok (VectorRanker.ofList (d.live (d.query step)))

theorem runLive_eq {began ended : Moment} {index : Int64} {query : Query} {ms : List Match}
    {out : Array Match} {c : Cache}
    (hall : (Served.pull hash .all ended c
      (c.serveLive began index query schema (VectorRanker.ofList ms))).1 = .all (.ok out)) :
    runLive hash began ended index query ms c = (.ok out, (Served.pull hash .all ended c
      (c.serveLive began index query schema (VectorRanker.ofList ms))).2.2) := by
  unfold runLive
  rcases hp : Served.pull hash .all ended c
    (c.serveLive began index query schema (VectorRanker.ofList ms)) with ⟨reply, ranker, c'⟩
  rw [hp] at hall
  cases hall
  simp only [hp]

/-- A step is a search and then asking for all of it at once. -/
theorem step_eq {began ended : Moment} {step : Nat} {c c' : Cache} {ranker : Served VectorRanker}
    {called : Bool} {ms : Array Match}
    (hsearch : w.search hash d began step c = (.ok ⟨.ok ranker, called⟩, c'))
    (hall : (ranker.pull hash .all ended c').1 = .all (.ok ms)) :
    w.step hash d began ended step c =
      (.ok ⟨!called, decide (ms ≠ (d.live (d.query step)).toArray)⟩,
        (ranker.pull hash .all ended c').2.2) := by
  unfold search Cache.search at hsearch
  unfold Workload.step
  dsimp only
  rcases hl : (w.invalidateDue step c).lookup hash began.wall (w.indexOf (d.query step))
    (request (d.query step)) schema with ⟨f | _ | e, c₁⟩ <;> rw [hl] at hsearch
  · cases hsearch
  · cases hsearch
    dsimp only
    rw [runLive_eq hall]
    rfl
  · dsimp only at hsearch ⊢
    rcases hstart : Replay.startFor (w.indexOf (d.query step)) e with err | r
    · rw [hstart] at hsearch
      cases hsearch
    · rw [hstart] at hsearch
      cases hsearch
      have hcollect : (Ranker.collect r).1 = .ok ms := Reply.all.inj hall
      have hbind : ((Except.ok r).bind fun r => (Ranker.collect r).1) = .ok ms := hcollect
      rw [hbind]
      rfl

/-- An invalidation adds nothing and is no lookup. -/
theorem invalidateDue_transparent {known : List Identity} {listing : Identity → Listing} {c : Cache}
    (h : (Service.mk c [] : Service VectorRanker).Transparent hash listing known)
    (hdistinct : Identifies hash known) (step : Nat) :
    (Service.mk (w.invalidateDue step c) [] : Service VectorRanker).Transparent hash listing known ∧
      (w.invalidateDue step c).hits = c.hits ∧ (w.invalidateDue step c).misses = c.misses := by
  unfold invalidateDue
  cases w.victim? step with
  | none => exact ⟨h, rfl, rfl⟩
  | some victim =>
    exact ⟨h.serve hdistinct (r := .invalidate victim) trivial (by rintro i ⟨⟩), rfl, rfl⟩

/-- Every step comes to an outcome, what its live ranker delivers comes out of it, and the cache has
counted one lookup more. -/
theorem step_sound {config : Config} (h : w.Fair hash d config) {c : Cache}
    (hc : (Service.mk c [] : Service VectorRanker).Transparent hash (w.listing hash d)
      (w.identities hash)) (began ended : Moment) (step : Nat) :
    ∃ o c', w.step hash d began ended step c = (.ok o, c') ∧ o.mismatch = false ∧
      (Service.mk c' [] : Service VectorRanker).Transparent hash (w.listing hash d)
        (w.identities hash) ∧
      c'.hits = c.hits + (if o.hit then 1 else 0) ∧
      c'.misses = c.misses + (if o.hit then 0 else 1) := by
  obtain ⟨hdue, hhits, hmisses⟩ := invalidateDue_transparent (w := w) hc h.distinct step
  have hknown : w.identity hash (d.query step) ∈ w.identities hash :=
    mem_identities.2 ⟨_, h.drawn step, rfl⟩
  obtain ⟨ranker, called, c', hsearch, hall, hafter⟩ := hdue.search_all h.distinct hknown
    (w.listing_identity hash d (d.query step)) rfl
    (VectorRanker.ofList_delivers (d.live (d.query step))) began ended
  obtain ⟨hfound, hmissed⟩ := Cache.search_counters hsearch
  obtain ⟨hpulledHits, hpulledMisses⟩ := ranker.pull_counters .all ended c'
  refine ⟨_, _, step_eq hsearch hall, by simp, hafter, ?_, ?_⟩
  · rw [hpulledHits, hfound, hhits]
    cases called <;> rfl
  · rw [hpulledMisses, hmissed, hmisses]
    cases called <;> rfl

end Workload

/-! ## Runs -/

/-- A step of a workload and its times. -/
structure Turn where
  step : Nat
  began : Moment
  ended : Moment

namespace SimulationRun

variable {hash : Hasher} {w : Workload} {d : Draws} {config : Config} {r : SimulationRun}

def start (config : Config) : SimulationRun := { cache := Cache.create config }

/-- Takes some steps, one after another. -/
def takeAll (hash : Hasher) (w : Workload) (d : Draws) :
    List Turn → SimulationRun → Except Stop SimulationRun
  | [], r => .ok r
  | t :: ts, r => (r.advance hash w d t.began t.ended t.step).bind (takeAll hash w d ts)

/-- So far every query has come out right and is counted, and every entry records the listing of its
query. -/
structure Sound (hash : Hasher) (w : Workload) (d : Draws) (r : SimulationRun) : Prop where
  cache : (Service.mk r.cache [] : Service VectorRanker).Transparent hash (w.listing hash d)
    (w.identities hash)
  matched : ∀ o ∈ r.outcomes, o.mismatch = false
  hits : r.cache.hits = r.hits.toUInt64
  misses : r.cache.misses = (r.outcomes.countP fun o => !o.hit).toUInt64

theorem start_sound (h : w.Fair hash d config) : (start config).Sound hash w d where
  cache := Service.create_transparent h.lifetime
  matched o ho := by cases ho
  hits := rfl
  misses := rfl

theorem Sound.advance (h : w.Fair hash d config) (hr : r.Sound hash w d) (began ended : Moment)
    (step : Nat) :
    ∃ r', r.advance hash w d began ended step = .ok r' ∧ r'.Sound hash w d ∧
      r'.outcomes.length = r.outcomes.length + 1 := by
  obtain ⟨o, c', hstep, hmatched, hcache, hhits, hmisses⟩ :=
    Workload.step_sound h hr.cache began ended step
  refine ⟨⟨c', o :: r.outcomes⟩, ?_, ⟨hcache, ?_, ?_, ?_⟩, rfl⟩
  · rw [SimulationRun.advance, hstep]
  · exact List.forall_mem_cons.2 ⟨hmatched, hr.matched⟩
  · show c'.hits = ((o :: r.outcomes).countP (·.hit)).toUInt64
    rw [List.countP_cons, Cache.toUInt64_add, hhits, hr.hits]
    cases o.hit <;> rfl
  · show c'.misses = ((o :: r.outcomes).countP fun o => !o.hit).toUInt64
    rw [List.countP_cons, Cache.toUInt64_add, hmisses, hr.misses]
    cases o.hit <;> rfl

theorem Sound.takeAll (h : w.Fair hash d config) (turns : List Turn) :
    ∀ {r : SimulationRun}, r.Sound hash w d →
      ∃ r', r.takeAll hash w d turns = .ok r' ∧ r'.Sound hash w d ∧
        r'.outcomes.length = r.outcomes.length + turns.length := by
  induction turns with
  | nil => exact fun hr => ⟨_, rfl, hr, rfl⟩
  | cons t turns ih =>
    intro r hr
    obtain ⟨r₁, hadvance, hr₁, hcount₁⟩ := hr.advance h t.began t.ended t.step
    obtain ⟨r₂, htake, hr₂, hcount₂⟩ := ih hr₁
    refine ⟨r₂, ?_, hr₂, ?_⟩
    · rw [SimulationRun.takeAll, hadvance]
      exact htake
    · rw [hcount₂, hcount₁, List.length_cons]
      omega

/-- The tool takes the steps in their order, at the times it reads from its clock. -/
theorem Sound.simulateFrom {m : Type → Type} [Monad m] [LawfulMonad m] (host : CommandLine.Host m)
    (h : w.Fair host.hash d config) (left : Nat) :
    ∀ {done : Nat} {r : SimulationRun}, r.Sound host.hash w d →
      CommandLine.simulateFrom host w d left done r = (do
        let turns ← (List.range' done left).mapM fun step =>
          return { step, began := ← host.now, ended := ← host.now : Turn }
        return r.takeAll host.hash w d turns) := by
  induction left with
  | zero => simp [CommandLine.simulateFrom, SimulationRun.takeAll]
  | succ left ih =>
    intro done r hr
    rw [CommandLine.simulateFrom, List.range'_succ, List.mapM_cons]
    simp only [bind_assoc, pure_bind]
    refine bind_congr fun began => bind_congr fun ended => ?_
    obtain ⟨r', hadvance, hr', -⟩ := hr.advance h began ended done
    rw [hadvance]
    simp only [SimulationRun.takeAll, hadvance, Except.bind]
    exact ih hr'

/-- The counters of the cache are those of the outcomes, as long as they do not wrap around. -/
theorem Sound.counted (hr : r.Sound hash w d) (hfits : r.outcomes.length < UInt64.size) :
    r.cache.status.hits.toNat = r.hits ∧
      r.cache.status.hits.toNat + r.cache.status.misses.toNat = r.outcomes.length := by
  have hsplit := List.length_eq_countP_add_countP (l := r.outcomes) (·.hit)
  have hhits : r.cache.status.hits.toNat = r.hits := by
    show r.cache.hits.toNat = r.hits
    rw [hr.hits]
    exact Nat.mod_eq_of_lt (Nat.lt_of_le_of_lt List.countP_le_length hfits)
  have hmisses : r.cache.status.misses.toNat = r.outcomes.countP fun o => !o.hit := by
    show r.cache.misses.toNat = _
    rw [hr.misses]
    exact Nat.mod_eq_of_lt (Nat.lt_of_le_of_lt List.countP_le_length hfits)
  refine ⟨hhits, ?_⟩
  rw [hhits, hmisses, hsplit]
  simp [SimulationRun.hits]

theorem Sound.cachedQueries_le (hr : r.Sound hash w d) :
    r.cache.status.cachedQueries ≤ max w.distinct 1 := by
  have hlength : r.cache.length ≤ (max w.distinct 1).toNat := by
    simpa [Workload.identities] using hr.cache.length_le
  exact UInt64.le_iff_toNat_le.2 (Nat.le_trans (Nat.mod_le _ _) hlength)

/-- Whatever queries are drawn and whatever they match, in whatever order the steps of a workload are
taken on a fresh cache and however long each takes: every step comes to an outcome and nothing else
comes out of it than the live ranker delivers. In the end the status shows the hits there were, and a
hit or a miss for every query; it never shows more entries than there are distinct queries. -/
theorem takeAll_sound (h : w.Fair hash d config) {turns : List Turn}
    (horder : (turns.map Turn.step).Perm (List.range w.queries.toNat)) :
    (∃ r, takeAll hash w d turns (start config) = .ok r ∧
      r.outcomes.length = w.queries.toNat ∧
      (∀ o ∈ r.outcomes, o.mismatch = false) ∧
      r.hits = r.cache.status.hits.toNat ∧
      r.cache.status.hits.toNat + r.cache.status.misses.toNat = w.queries.toNat) ∧
    ∀ done, done <+: turns → ∃ r, takeAll hash w d done (start config) = .ok r ∧
      r.cache.status.cachedQueries ≤ max w.distinct 1 := by
  have hrun := fun turns => (start_sound h).takeAll h turns
  constructor
  · obtain ⟨r, htake, hr, hcount⟩ := hrun turns
    have hqueries : turns.length = w.queries.toNat := by simpa using horder.length_eq
    have hlength : r.outcomes.length = w.queries.toNat := by
      rw [hcount, hqueries]
      exact Nat.zero_add _
    obtain ⟨hhits, hlookups⟩ := hr.counted (hlength ▸ w.queries.toNat_lt)
    exact ⟨r, htake, hlength, hr.matched, hhits.symm, hlookups.trans hlength⟩
  · intro done _
    obtain ⟨r, htake, hr, -⟩ := hrun done
    exact ⟨r, htake, hr.cachedQueries_le⟩

/-- Three queries out of two, the last step first and an index invalidated on the way. -/
theorem three_queries_out_of_two :
    let w : Workload := { queries := 3, distinct := 2, indexes := 2, invalidateEvery := 2 }
    let d : Draws := { query := fun step => if step = 1 then 1 else 0, live := fun id => [⟨id, 7⟩] }
    let turns : List Turn :=
      [⟨2, ⟨0, 1000000⟩, ⟨5, 6000000⟩⟩, ⟨0, ⟨6, 7000000⟩, ⟨6, 7000001⟩⟩,
        ⟨1, ⟨7, 8000000⟩, ⟨9, 9000000⟩⟩]
    w.Fair mixing d { thresholdMs := 0 } ∧
    ∃ r, takeAll mixing w d turns (start { thresholdMs := 0 }) = .ok r ∧ r.outcomes.length = 3 ∧
      (∀ o ∈ r.outcomes, o.mismatch = false) ∧
      r.cache.status.hits.toNat + r.cache.status.misses.toNat = 3 := by
  intro w d turns
  have hfair : w.Fair mixing d { thresholdMs := 0 } := by
    refine ⟨fun step => ?_, by decide, ?_⟩
    · show (if step = 1 then 1 else 0) < max (2 : UInt64) 1
      split <;> decide
    · decide +kernel
  have horder : (turns.map Turn.step).Perm (List.range w.queries.toNat) := by decide
  obtain ⟨⟨r, htake, hlength, hmatched, -, hlookups⟩, -⟩ := takeAll_sound hfair horder
  exact ⟨hfair, r, htake, hlength, hmatched, hlookups⟩

end SimulationRun

end ResultCache
