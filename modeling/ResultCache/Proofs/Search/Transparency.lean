/-
A cache in service is not noticed. Every query has its listing; whatever the searches return, live
rankers or replays, and whatever the cache drops, replaces or is told to do meanwhile, every client
gets the listing of its query, from the front and to its end. What is kept through all requests
(`Service.Transparent`): every entry records the listing of the query it is filed for, and every
client's ranker has the rest of its listing before it.
-/
import ResultCache.Proofs.Ranker.Spending
import ResultCache.Proofs.Search.Service
import ResultCache.Query.Mixing
import ResultCache.Ranker.Simple

namespace ResultCache

universe u

variable {σ : Type u}

/-! ## Scenarios -/

/-- A search finds the listing of its query, if its live ranker comes about, and a lifetime can be
expressed. -/
def Request.Fair [Ranker σ] (hash : Hasher) (listing : Identity → Listing) : Request σ → Prop
  | .search _ index query schema live =>
    ∀ s, live = .ok s → Ranker.Delivers (listing (.of hash index query schema)) [] s
  | .configure config => Shelf.endless config.ttlSecs = false
  | _ => True

/-- The query that is searched for. -/
def Request.searched (hash : Hasher) : Request σ → Option Identity
  | .search _ index query schema _ => some (.of hash index query schema)
  | _ => none

/-- Fair requests, in which queries that differ have fingerprints that differ. -/
structure Scenario [Ranker σ] (hash : Hasher) (listing : Identity → Listing) (config : Config)
    (rs : List (Request σ)) : Prop where
  lifetime : Shelf.endless config.ttlSecs = false
  fair : ∀ r ∈ rs, r.Fair hash listing
  distinct : Identifies hash (rs.filterMap (Request.searched hash))

/-! ## What is kept -/

/-- A ranker that serves a query, `handed` of whose listing has been handed out. A record, if there
still is one, has all of that. -/
inductive Served.Delivers [Ranker σ] (hash : Hasher) (i : Identity) (l : Listing)
    (handed : List Match) : Served σ → Prop where
  | replay {r : Replay} : Ranker.Delivers l handed r → Delivers hash i l handed (.replay r)
  | live {s : σ} : Ranker.Delivers l handed s → Delivers hash i l handed (.live s)
  | recorded {r : Recorder σ} : Ranker.Delivers l handed r.inner → r.query = i.query →
      r.schema.signature hash = i.signature →
      (∀ d, r.draft = some d → d = (Draft.start i.index).pushAll handed) →
      Delivers hash i l handed (.recorded r)

/-- An entry that records the listing of one of these queries and is filed for it. -/
def Entry.Records (hash : Hasher) (listing : Identity → Listing) (known : List Identity)
    (e : Entry) : Prop :=
  ∃ i ∈ known, e.index = i.index ∧ (⟨e.key, e.filterHashes⟩ : Fingerprint) = i.fingerprint hash ∧
    (listing i).ending = .exhausted ∧ e.unpack = .ok (listing i).items.toArray

structure Service.Transparent [Ranker σ] (hash : Hasher) (listing : Identity → Listing)
    (known : List Identity) (s : Service σ) : Prop where
  cache : ∃ m, s.cache.Mirrors m ∧ Shelf.endless m.config.ttlSecs = false ∧
    ∀ e ∈ m.entries, e.Records hash listing known
  clients : ∀ (k : Nat) (c : Client σ), s.clients[k]? = some c → c.identity ∈ known ∧
    c.ranker.Delivers hash c.identity (listing c.identity) c.taken

/-! ## Pulls -/

section

variable [Ranker σ] [Ranker.Bounded σ] [LawfulRanker σ] {hash : Hasher} {i : Identity} {l : Listing}
  {handed : List Match}

theorem Served.pull_shows (hash : Hasher) (p : Pull) (now : Moment) (cache : Cache)
    (ranker : Served σ) :
    (ranker.pull hash p now cache).1.Shows p (ranker.taken hash p now cache) := by
  cases ranker with
  | replay r => exact Ranker.pull_shows p r
  | live s => exact Ranker.pull_shows p s
  | recorded r =>
    have hreply : (Served.pull hash p now cache (.recorded r)).1 = (Ranker.pull p r.inner).1 :=
      congrArg Prod.fst (Recorder.visit_eq hash ⟨p, now, cache⟩ r)
    rw [hreply, Served.taken, Recorder.taken_eq]
    exact Ranker.pull_shows p r.inner

theorem Served.Delivers.pull {ranker : Served σ} (h : ranker.Delivers hash i l handed) (p : Pull)
    (now : Moment) (cache : Cache) :
    (ranker.pull hash p now cache).2.1.Delivers hash i l
        (handed ++ ranker.taken hash p now cache) ∧
      (ranker.pull hash p now cache).1.signal.Tells l handed
        (ranker.taken hash p now cache) := by
  cases h with
  | replay h =>
    obtain ⟨hdelivers, htells⟩ := h.pull p
    exact ⟨.replay hdelivers, htells⟩
  | live h =>
    obtain ⟨hdelivers, htells⟩ := h.pull p
    exact ⟨.live hdelivers, htells⟩
  | @recorded r hinner hquery hschema hdraft =>
    obtain ⟨hdelivers, htells⟩ := hinner.pull p
    have hreply : (r.pull hash p now cache).1 = (Ranker.pull p r.inner).1 :=
      congrArg Prod.fst (Recorder.visit_eq hash ⟨p, now, cache⟩ r)
    obtain ⟨hinner', hquery', hschema', -⟩ := Recorder.visit_frame hash ⟨p, now, cache⟩ r
    have htaken := Recorder.taken_eq hash ⟨p, now, cache⟩ r
    rw [← htaken] at hdelivers htells
    rw [← hreply] at htells
    rw [← hinner'] at hdelivers
    refine ⟨.recorded hdelivers (hquery'.trans hquery)
      ((congrArg (Schema.signature hash) hschema').trans hschema) ?_, htells⟩
    intro d' hd'
    rcases Recorder.visit_draft hash ⟨p, now, cache⟩ r with hnone | hmap
    · cases hnone.symm.trans hd'
    · obtain ⟨d, hd, rfl⟩ := Option.map_eq_some_iff.1 (hmap.symm.trans hd')
      rw [hdraft d hd, ← Draft.pushAll_append]
      rfl

omit [Ranker.Bounded σ] [LawfulRanker σ] in
theorem Served.Delivers.handed_prefix {ranker : Served σ} (h : ranker.Delivers hash i l handed) :
    handed <+: l.items := by
  cases h with
  | replay h => exact h.handed_prefix
  | live h => exact h.handed_prefix
  | recorded h => exact h.handed_prefix

/-- What a recorder publishes is the listing of its query. -/
theorem Served.Delivers.publishes {listing : Identity → Listing} {known : List Identity}
    {r : Recorder σ} (h : Served.Delivers hash i (listing i) handed (.recorded r)) (hi : i ∈ known)
    {v : Visit} {e : Entry} (hpub : r.Publishes hash v e) : e.Records hash listing known := by
  obtain ⟨hended, ⟨d, hd, rfl⟩, -⟩ := hpub
  have htells := (h.pull v.pull v.now v.cache).2
  rw [show (Served.pull hash v.pull v.now v.cache (.recorded r)).1.signal = .ended from hended]
    at htells
  obtain ⟨hall, hending⟩ := htells
  obtain - | - | ⟨hinner, hquery, hschema, hdraft⟩ := h
  have hpushed : d.pushAll (r.taken hash v) = (Draft.start i.index).pushAll (listing i).items := by
    rw [hdraft d hd, ← Draft.pushAll_append, ← hall]
    rfl
  rw [hpushed]
  have hindex : ((Draft.start i.index).pushAll (listing i).items).index = i.index :=
    Draft.pushAll_index _ _
  refine ⟨i, hi, hindex, ?_, hending,
    Draft.finish_unpack i.index _ v.now.wall (v.now.steady - r.startedAt).toNat⟩
  show Fingerprint.ofQuery hash ((Draft.start i.index).pushAll _).index r.query
    (r.schema.signature hash) = _
  rw [hindex, hquery, hschema]
  rfl

end

/-! ## Searches -/

namespace Service

variable [Ranker σ] {hash : Hasher} {listing : Identity → Listing} {known : List Identity}
  {s : Service σ} {now : Moment} {index : Int64} {query : Query} {schema : Schema}

/-- A search comes to an answer, and to a ranker unless the live one does not come about. -/
theorem Transparent.search_answers (h : s.Transparent hash listing known)
    {live : Unit → Except CacheError σ} :
    ∃ outcome, (s.cache.search hash now index query schema live).1 = .ok outcome ∧
      ∀ e, outcome.ranker = .error e → outcome.liveCalled = true ∧ live () = .error e := by
  obtain ⟨m, hm, hspan, -⟩ := h.cache
  obtain ⟨found, hfound⟩ : ∃ found, (s.cache.lookup hash now.wall index query schema).1 = .ok found :=
    hm.find_answers hspan
  unfold Cache.search
  rcases hl : s.cache.lookup hash now.wall index query schema with ⟨f | _ | e, c⟩
  · rw [hl] at hfound
    cases hfound
  · refine ⟨_, rfl, fun e he => ⟨rfl, ?_⟩⟩
    cases hlive : live () with
    | error e' =>
      rw [hlive] at he
      cases he
      rfl
    | ok l =>
      rw [hlive] at he
      cases he
  · -- an entry that is given out belongs to the index asked for
    have hindex : e.index = index := (hm.find_hit (congrArg Prod.fst hl)).2.2.1
    refine ⟨_, rfl, fun e' he' => ?_⟩
    rw [Replay.startFor, if_pos hindex] at he'
    cases he'

theorem Transparent.search_delivers (h : s.Transparent hash listing known)
    (hi : Identity.of hash index query schema ∈ known)
    (hdistinct : Identifies hash known)
    {live : Except CacheError σ}
    (hlive : ∀ s, live = .ok s → Ranker.Delivers (listing (.of hash index query schema)) [] s)
    {ranker : Served σ} {called : Bool}
    (hsearch : (s.cache.search hash now index query schema fun _ => live).1 =
      .ok ⟨.ok ranker, called⟩) :
    ranker.Delivers hash (.of hash index query schema) (listing (.of hash index query schema))
      [] := by
  obtain ⟨m, hm, -, hrecords⟩ := h.cache
  unfold Cache.search at hsearch
  rcases hl : s.cache.lookup hash now.wall index query schema with ⟨f | _ | e, c⟩
  · rw [hl] at hsearch
    cases hsearch
  · rw [hl] at hsearch
    cases live with
    | error e => cases hsearch
    | ok l =>
      have hdelivers := hlive l rfl
      cases hsearch
      unfold Cache.serveLive Cache.draft?
      cases c.policy.shouldBuild none with
      | false => exact .live hdelivers
      | true => exact .recorded hdelivers rfl rfl fun d hd => by cases hd; rfl
  · obtain ⟨hmem, hkey, hindex, hfilters⟩ := hm.find_hit (congrArg Prod.fst hl)
    obtain ⟨i, hiknown, -, hfiled, hending, hunpack⟩ := hrecords e hmem
    -- the entry found is filed for the very query that is searched for
    have hsame : i = .of hash index query schema := by
      apply hdistinct i hiknown _ hi
      rw [← hfiled, hkey, hfilters]
      rfl
    subst hsame
    have hstart : Replay.startFor index e = .ok (Replay.start e) := if_pos hindex
    rw [hl] at hsearch
    dsimp only at hsearch
    rw [hstart] at hsearch
    cases hsearch
    exact .replay (Replay.start_delivers hunpack hending)

/-! ## Requests -/

variable [Ranker.Bounded σ] [LawfulRanker σ]

theorem Transparent.serve (h : s.Transparent hash listing known)
    (hdistinct : Identifies hash known)
    {r : Request σ} (hfair : r.Fair hash listing)
    (hknown : ∀ i, r.searched hash = some i → i ∈ known) :
    (s.serve hash r).Transparent hash listing known := by
  constructor
  · obtain ⟨m, hm, hspan, hrecords⟩ := h.cache
    obtain ⟨m', hm', hconfig, hentries⟩ := serve_mirrors hash hm r
    refine ⟨m', hm', ?_, fun e he => ?_⟩
    · rcases hconfig with hsame | rfl
      · rwa [hsame]
      · exact hfair
    · rcases hentries e he with ⟨he, -⟩ | ⟨k, p, now, c, recorder, rfl, hk, hranker, hpub⟩
      · exact hrecords e he
      · obtain ⟨hi, hdelivers⟩ := h.clients k c hk
        rw [hranker] at hdelivers
        exact hdelivers.publishes hi hpub
  · intro k c' hk'
    rcases serve_clients hk' with hk | ⟨p, now, c, rfl, hk, rfl⟩ |
      ⟨-, now, index, query, schema, live, ranker, called, rfl, hsearch, rfl⟩
    · exact h.clients k c' hk
    · obtain ⟨hi, hdelivers⟩ := h.clients k c hk
      exact ⟨hi, (hdelivers.pull p now s.cache).1⟩
    · have hi := hknown _ rfl
      exact ⟨hi, h.search_delivers hi hdistinct hfair hsearch⟩

omit [Ranker.Bounded σ] [LawfulRanker σ] in
theorem create_transparent {config : Config} (h : Shelf.endless config.ttlSecs = false) :
    (create config : Service σ).Transparent hash listing known := by
  constructor
  · exact ⟨_, Cache.create_mirrors config, h, by simp [Shelf.create]⟩
  · intro k c hk
    simp [create] at hk

theorem Transparent.run (hdistinct : Identifies hash known) (rs : List (Request σ)) :
    ∀ {s : Service σ}, s.Transparent hash listing known → (∀ r ∈ rs, r.Fair hash listing) →
      (∀ i ∈ rs.filterMap (Request.searched hash), i ∈ known) →
        (s.run hash rs).Transparent hash listing known := by
  induction rs with
  | nil => exact fun h _ _ => h
  | cons r rs ih =>
    intro s h hfair hknown
    apply ih
    · apply h.serve hdistinct (hfair r (by simp))
      intro i hi
      exact hknown i (List.mem_filterMap.2 ⟨r, by simp, hi⟩)
    · exact fun r' hr' => hfair r' (by simp [hr'])
    · intro i hi
      obtain ⟨r', hr', hi⟩ := List.mem_filterMap.1 hi
      exact hknown i (List.mem_filterMap.2 ⟨r', by simp [hr'], hi⟩)

/-- Whatever was asked of the service, the matches a client has taken and those of its next pull are
the beginning of the listing of its query; the reply shows them, and reports the end, or the failure,
of the listing with its last match and not before. Every search comes to an answer, without a ranker
only if the live ranker does not come about. -/
theorem run_transparent {config : Config} {rs : List (Request σ)}
    (h : Scenario hash listing config rs) :
    let s := (create config : Service σ).run hash rs
    (∀ (k : Nat) (c : Client σ), s.clients[k]? = some c → ∀ (p : Pull) (now : Moment),
      c.taken ++ c.ranker.taken hash p now s.cache <+: (listing c.identity).items ∧
      (c.ranker.pull hash p now s.cache).1.Shows p (c.ranker.taken hash p now s.cache) ∧
      (c.ranker.pull hash p now s.cache).1.signal.Tells (listing c.identity) c.taken
        (c.ranker.taken hash p now s.cache)) ∧
    ∀ now index query schema (live : Unit → Except CacheError σ), ∃ outcome,
      (s.cache.search hash now index query schema live).1 = .ok outcome ∧
      ∀ e, outcome.ranker = .error e → outcome.liveCalled = true ∧ live () = .error e := by
  intro s
  have hrun := Transparent.run h.distinct rs (create_transparent h.lifetime) h.fair fun i hi => hi
  constructor
  · intro k c hk p now
    obtain ⟨hdelivers, htells⟩ := (hrun.clients k c hk).2.pull p now s.cache
    exact ⟨hdelivers.handed_prefix, Served.pull_shows hash p now s.cache c.ranker, htells⟩
  · intro now index query schema live
    exact hrun.search_answers

/-! ## Searches on their own -/

omit [LawfulRanker σ]

/-- A recorder that is pulled to its end, one match at a time, has its record stored. -/
theorem run_completed (k : Nat) (last : Moment) {i : Identity} {found : List Match} :
    ∀ (times : List Moment) (s : Service σ) (r : Recorder σ) {d : Draft} {ms : List Match},
      times.length = found.length → s.clients[k]? = some ⟨i, .recorded r, ms⟩ →
      r.draft = some d → Ranker.Lists found r.inner →
      ∃ c, s.run hash ((times ++ [last]).map fun now => .pull k .one now) =
        { cache := (s.cache.store hash r.query
            ((d.pushAll found).finish last.wall (last.steady - r.startedAt).toNat) r.schema).2
          clients := s.clients.set k c } := by
  induction found with
  | nil =>
    intro times s r d ms htimes hk hdraft hlists
    obtain rfl : times = [] := List.eq_nil_of_length_eq_zero htimes
    obtain ⟨inner, hnext, -⟩ := hlists.nextMatch_nil
    exact ⟨_, serve_pull_completed last hk hdraft hnext⟩
  | cons m found ih =>
    intro times s r d ms htimes hk hdraft hlists
    obtain ⟨now, times, rfl⟩ := List.exists_cons_of_length_eq_add_one htimes
    obtain ⟨inner, hnext, hlists⟩ := hlists.nextMatch_cons
    have hk' : (s.serve hash (.pull k .one now)).clients[k]? = some ⟨i,
        .recorded { r with inner, draft := some (d.pushAll [m]) }, ms ++ [m]⟩ := by
      rw [serve_pull_noted now hk hnext, hdraft]
      exact List.getElem?_set_self (List.getElem?_eq_some_iff.1 hk).1
    obtain ⟨c, hrun⟩ := ih times _ _ (Nat.succ.inj htimes) hk' rfl hlists
    refine ⟨c, hrun.trans ?_⟩
    rw [serve_pull_noted now hk hnext, List.set_set]
    rfl

/-- A search that no entry answers, pulled to its end, has what it found stored. -/
theorem run_search_stored {c c' : Cache} (clients : List (Client σ)) (began last : Moment)
    (times : List Moment) {live : σ} {found : List Match} {elapsed : Nat}
    (hmiss : c.lookup hash began.wall index query schema = (.ok none, c'))
    (hon : c'.config.isEnabled = true) (htimes : times.length = found.length)
    (hlists : Ranker.Lists found live) (helapsed : (last.steady - began.steady).toNat = elapsed) :
    ∃ k, run hash (.search began index query schema (.ok live) ::
        (times ++ [last]).map fun now => .pull clients.length .one now) ⟨c, clients⟩ =
      ⟨(c'.store hash query (((Draft.start index).pushAll found).finish last.wall elapsed)
        schema).2, clients ++ [k]⟩ := by
  let client : Client σ := ⟨.of hash index query schema,
    .recorded (Recorder.start live (Draft.start index) query schema began.steady), []⟩
  have hk : (clients ++ [client])[clients.length]? = some client := by simp
  obtain ⟨k, hrun⟩ := run_completed clients.length last times ⟨c', clients ++ [client]⟩ _ htimes hk
    rfl hlists
  refine ⟨k, ?_⟩
  rw [run_cons, serve_search_miss ⟨c, clients⟩ began hmiss hon, ← helapsed]
  exact hrun.trans (by simp [Recorder.start])

/-- A search that an entry answers, and the first pull on its replay. -/
theorem run_search_replayed {c c' : Cache} (clients : List (Client σ)) (began later : Moment)
    (p : Pull) (live : Except CacheError σ) {e : Entry}
    (hhit : c.lookup hash began.wall index query schema = (.ok (some e), c'))
    (hindex : e.index = index) :
    run hash [.search began index query schema live, .pull clients.length p later] ⟨c, clients⟩ =
      ⟨c', clients ++ [⟨.of hash index query schema, .replay (Ranker.pull p (Replay.start e)).2,
        Ranker.taken p (Replay.start e)⟩]⟩ := by
  rw [run_cons, serve_search_hit ⟨c, clients⟩ began hhit hindex]
  simp [run, serve, Served.pull, Served.taken]

/-! ## A replay outlives its entry -/

theorem finish_of_two :
    ((Draft.start 1).pushAll [⟨100, 5⟩, ⟨50, 5⟩]).finish 2 3000000 =
      { index := 1, builtAt := 2, elapsedMs := 3
        stream := { bytes := #[2, 200, 1, 0, 99, 0], weights := #[5], total := 2 } } := by
  rw [← Recorder.stream_of_two]
  rfl

theorem finish_of_one :
    ((Draft.start 1).pushAll [⟨7, 1⟩]).finish 7 4000000 =
      { index := 1, builtAt := 7, elapsedMs := 4
        stream := { bytes := #[1, 14, 0], weights := #[1], total := 1 } } := by
  show Entry.mk _ _ _ _ _ (Writer.empty.append ⟨7, 1⟩).finish = _
  rw [Writer.append_empty]
  decide +kernel

/-- Two entries for which there is no room at once: the first is found, and then the second takes its
place. -/
theorem second_takes_place :
    let config : Config := { maxBytes := 200, thresholdMs := 2 }
    let first := ((Draft.start 1).pushAll [⟨100, 5⟩, ⟨50, 5⟩]).finish 2 3000000
    let second := ((Draft.start 1).pushAll [⟨7, 1⟩]).finish 7 4000000
    ∃ c₁ c₂ : Cache,
      ((Cache.create config).countMiss.store mixing { text := "rust" } first {}).2.lookup mixing 3 1
          { text := "rust" } {} = (.ok (some (Cache.filed mixing { text := "rust" } {} first)), c₁) ∧
        c₁.lookup mixing 5 1 { text := "cache" } {} = (.ok none, c₂) ∧ c₂.config.isEnabled = true ∧
        (c₂.store mixing { text := "cache" } second {}).2.entries =
          [Cache.filed mixing { text := "cache" } {} second] := by
  rw [finish_of_two, finish_of_one]
  intro config first second
  have h₀ : (Cache.create config).countMiss.Mirrors (Shelf.create config) :=
    (Cache.create_mirrors config).congr rfl rfl
  have h₁ := (h₀.store mixing { text := "rust" } {} first).2
  obtain ⟨c₁, hhit, h₂⟩ := h₁.lookup (by rw [Shelf.config_offer]; decide) mixing 3 1
    { text := "rust" } {}
  obtain ⟨c₂, hmiss, h₃⟩ := h₂.lookup
    (by rw [Shelf.config_find, Shelf.config_offer]; decide) mixing 5 1 { text := "cache" } {}
  have h₄ := (h₃.store mixing { text := "cache" } {} second).2
  -- what becomes of the list can be computed
  refine ⟨c₁, c₂, ?_, ?_, ?_, h₄.shows.entries.trans ?_⟩
  · rw [hhit]
    refine congrArg (fun found => (Except.ok found, c₁)) ?_
    decide +kernel
  · rw [hmiss]
    refine congrArg (fun found => (Except.ok found, c₂)) ?_
    decide +kernel
  · rw [h₃.config, Shelf.config_find, Shelf.config_find, Shelf.config_offer]
    decide
  · decide +kernel

/-- The runs one after another. -/
theorem run_evicted :
    let config : Config := { maxBytes := 200, thresholdMs := 2 }
    let rust : Except CacheError VectorRanker := .ok (.ofList [⟨100, 5⟩, ⟨50, 5⟩])
    let replay := Replay.start (Cache.filed mixing { text := "rust" } {}
      (((Draft.start 1).pushAll [⟨100, 5⟩, ⟨50, 5⟩]).finish 2 3000000))
    ∃ c k₀ k₂, run mixing
        [.search ⟨0, 1000000⟩ 1 { text := "rust" } {} rust,
          .pull 0 .one ⟨1, 2000000⟩, .pull 0 .one ⟨1, 3000000⟩, .pull 0 .one ⟨2, 4000000⟩,
          .search ⟨3, 4000001⟩ 1 { text := "rust" } {} rust, .pull 1 .one ⟨4, 4000002⟩,
          .search ⟨5, 5000000⟩ 1 { text := "cache" } {} (.ok (.ofList [⟨7, 1⟩])),
          .pull 2 .one ⟨6, 6000000⟩, .pull 2 .one ⟨7, 9000000⟩]
        (create config) =
      ⟨c, [k₀, ⟨.of mixing 1 { text := "rust" } {}, .replay (Ranker.pull .one replay).2,
        Ranker.taken .one replay⟩, k₂]⟩ ∧
      c.entries = [Cache.filed mixing { text := "cache" } {}
        (((Draft.start 1).pushAll [⟨7, 1⟩]).finish 7 4000000)] := by
  intro config rust replay
  obtain ⟨c₁, c₂, hhit, hmiss, hon, hheld⟩ := second_takes_place
  have hempty : (Cache.create config).lookup mixing 0 1 { text := "rust" } {} =
      (.ok none, (Cache.create config).countMiss) := Cache.lookup_empty rfl
  obtain ⟨k₀, hstored⟩ := run_search_stored [] ⟨0, 1000000⟩ ⟨2, 4000000⟩
    [⟨1, 2000000⟩, ⟨1, 3000000⟩] hempty rfl rfl (VectorRanker.ofList_lists [⟨100, 5⟩, ⟨50, 5⟩])
    (show _ = 3000000 from rfl)
  rw [List.nil_append] at hstored
  have hreplayed := run_search_replayed [k₀] ⟨3, 4000001⟩ ⟨4, 4000002⟩ .one rust hhit rfl
  obtain ⟨k₂, hreplaced⟩ := run_search_stored ([k₀] ++ [_]) ⟨5, 5000000⟩ ⟨7, 9000000⟩
    [⟨6, 6000000⟩] hmiss hon rfl (VectorRanker.ofList_lists [⟨7, 1⟩]) (show _ = 4000000 from rfl)
  refine ⟨_, k₀, k₂, Eq.trans ?_ hreplaced, hheld⟩
  rw [← hreplayed, ← hstored, ← run_append, ← run_append]
  rfl

theorem pulls_of_replay :
    let replay := Replay.start (Cache.filed mixing { text := "rust" } {}
      (((Draft.start 1).pushAll [⟨100, 5⟩, ⟨50, 5⟩]).finish 2 3000000))
    Ranker.taken .one replay = [⟨100, 5⟩] ∧
      Ranker.taken .one (Ranker.pull .one replay).2 = [⟨50, 5⟩] := by
  rw [finish_of_two]
  decide +kernel

/-- A replay goes on to the end of its listing although its entry has given way to another. -/
theorem evicted_replay_served :
    let listing : Identity → Listing := fun i =>
      if i.query.text = "rust" then { items := [⟨100, 5⟩, ⟨50, 5⟩] } else { items := [⟨7, 1⟩] }
    let config : Config := { maxBytes := 200, thresholdMs := 2 }
    let rust : Except CacheError VectorRanker := .ok (.ofList [⟨100, 5⟩, ⟨50, 5⟩])
    let rs : List (Request VectorRanker) :=
      [.search ⟨0, 1000000⟩ 1 { text := "rust" } {} rust,
        .pull 0 .one ⟨1, 2000000⟩, .pull 0 .one ⟨1, 3000000⟩, .pull 0 .one ⟨2, 4000000⟩,
        .search ⟨3, 4000001⟩ 1 { text := "rust" } {} rust, .pull 1 .one ⟨4, 4000002⟩,
        .search ⟨5, 5000000⟩ 1 { text := "cache" } {} (.ok (.ofList [⟨7, 1⟩])),
        .pull 2 .one ⟨6, 6000000⟩, .pull 2 .one ⟨7, 9000000⟩]
    let s := (create config).run mixing rs
    Scenario mixing listing config rs ∧ s.cache.entries.map Entry.unpack = [.ok #[⟨7, 1⟩]] ∧
    ∃ r, s.clients[1]? = some ⟨.of mixing 1 { text := "rust" } {}, .replay r, [⟨100, 5⟩]⟩ ∧
      Ranker.taken .one r = [⟨50, 5⟩] ∧
      ∀ p, [⟨100, 5⟩] ++ Ranker.taken p r <+: [⟨100, 5⟩, ⟨50, 5⟩] ∧
        (Ranker.pull p r).1.signal.Tells { items := [⟨100, 5⟩, ⟨50, 5⟩] } [⟨100, 5⟩]
          (Ranker.taken p r) := by
  intro listing config rust rs s
  have hscenario : Scenario mixing listing config rs := by
    refine ⟨by decide, ?_, by decide +kernel⟩
    have hfair : ∀ (now : Moment) (text : String) (ms : List Match),
        listing (.of mixing 1 { text } {}) = { items := ms } → Request.Fair mixing listing
          (.search now 1 { text } {} (.ok (VectorRanker.ofList ms))) := by
      rintro now text ms hl s ⟨⟩
      rw [hl]
      exact VectorRanker.ofList_delivers ms
    simp only [rs, List.forall_mem_cons, List.not_mem_nil, false_imp_iff, implies_true, and_true]
    exact ⟨hfair _ _ _ rfl, trivial, trivial, trivial, hfair _ _ _ rfl, trivial, hfair _ _ _ rfl,
      trivial, trivial⟩
  obtain ⟨c, k₀, k₂, hrun, hheld⟩ := run_evicted
  obtain ⟨hfirst, hsecond⟩ := pulls_of_replay
  rw [hfirst] at hrun
  generalize (Ranker.pull .one (Replay.start _)).2 = r at hrun hsecond
  have hs : s = ⟨c, [k₀, ⟨.of mixing 1 { text := "rust" } {}, .replay r, [⟨100, 5⟩]⟩, k₂]⟩ := hrun
  have hclient : s.clients[1]? =
      some ⟨.of mixing 1 { text := "rust" } {}, .replay r, [⟨100, 5⟩]⟩ := by
    rw [hs]
    rfl
  refine ⟨hscenario, ?_, r, hclient, hsecond, fun p => ?_⟩
  · rw [hs, hheld]
    rw [List.map_singleton, Cache.filed_unpack, Draft.finish_unpack]
  · obtain ⟨hstarts, -, htells⟩ := (run_transparent hscenario).1 1 _ hclient p ⟨8, 9000001⟩
    have hl : listing (.of mixing 1 { text := "rust" } {}) = { items := [⟨100, 5⟩, ⟨50, 5⟩] } := rfl
    rw [hl] at hstarts htells
    exact ⟨hstarts, htells⟩

end Service

end ResultCache
