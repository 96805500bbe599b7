/-
How old the answers of a cache in service may be. An invalidation drops what the cache holds of an
index, and whatever a lookup or a search on the index is given afterwards was published after it
(`Service.hit_published_since`). But a recorder does not know of invalidations: one that was at work
before may publish afterwards, and then the cache gives out matches from before the invalidation
(`Service.stale_hit`).
-/
import ResultCache.Proofs.Search.Service
import ResultCache.Query.Mixing
import ResultCache.Ranker.Simple

namespace ResultCache

universe u

variable {σ : Type u}

/-- A client whose record may still be published. -/
def Client.InFlight (c : Client σ) : Prop := ∃ r, c.ranker = .recorded r ∧ r.draft.isSome

namespace Service

/-- A lookup for a query is given the entry `e`, or a search its replay. -/
def Hits (hash : Hasher) (now : Moment) (index : Int64) (query : Query) (schema : Schema)
    (e : Entry) (s : Service σ) : Prop :=
  (s.cache.lookup hash now.wall index query schema).1 = .ok (some e) ∨
    ∃ live : Unit → Except CacheError σ, (s.cache.search hash now index query schema live).1 =
      .ok ⟨.ok (.replay (Replay.start e)), false⟩

variable {hash : Hasher} {s : Service σ} {m : Shelf} {e : Entry} {now : Moment} {index : Int64}
  {query : Query} {schema : Schema}

/-! ## Hits -/

theorem Hits.lookup (h : s.Hits hash now index query schema e) :
    (s.cache.lookup hash now.wall index query schema).1 = .ok (some e) := by
  rcases h with h | ⟨live, h⟩
  · exact h
  · unfold Cache.search at h
    rcases hl : s.cache.lookup hash now.wall index query schema with ⟨f | _ | e', c⟩
    · rw [hl] at h
      cases h
    · simp [hl] at h
    · rw [hl] at h
      dsimp only at h
      by_cases hindex : e'.index = index
      · rw [Replay.startFor, if_pos hindex] at h
        -- a replay holds the entry it is of
        cases h
        rfl
      · rw [Replay.startFor, if_neg hindex] at h
        cases h

/-! ## Where entries come from -/

variable [Ranker σ] [Ranker.Bounded σ]

/-- One of some requests publishes the record of client `k` as `e`. -/
def PublishedIn (hash : Hasher) (rs : List (Request σ)) (k : Nat) (e : Entry) (s : Service σ) :
    Prop :=
  ∃ mid r rest, rs = mid ++ r :: rest ∧ (s.run hash mid).Publishes hash r k e

theorem clients_le_serve (r : Request σ) (s : Service σ) :
    s.clients.length ≤ (s.serve hash r).clients.length := by
  cases r with
  | search now index query schema live =>
    show _ ≤ (enlist _ (s.cache.search hash now index query schema fun _ => live).1 s.clients).length
    unfold enlist
    split
    · simp
    · exact Nat.le_refl _
  | pull k p now =>
    unfold serve
    cases hk : s.clients[k]? <;> simp [hk]
  | _ => exact Nat.le_refl _

variable [LawfulRanker σ]

theorem run_mirrors (hash : Hasher) (rs : List (Request σ)) :
    ∀ {s : Service σ} {m : Shelf}, s.cache.Mirrors m →
      ∃ m', (s.run hash rs).cache.Mirrors m' ∧
        ∀ e ∈ m'.entries, e ∈ m.entries ∨ ∃ k, s.PublishedIn hash rs k e := by
  induction rs with
  | nil => exact fun h => ⟨_, h, fun e he => .inl he⟩
  | cons r rs ih =>
    intro s m h
    obtain ⟨m₁, h₁, -, hentries₁⟩ := serve_mirrors hash h r
    obtain ⟨m₂, h₂, hentries₂⟩ := ih h₁
    refine ⟨m₂, h₂, fun e he => ?_⟩
    rcases hentries₂ e he with he | ⟨k, mid, r', rest, rfl, hpub⟩
    · rcases hentries₁ e he with ⟨he, -⟩ | ⟨k, hpub⟩
      · exact .inl he
      · exact .inr ⟨k, [], r, rs, rfl, hpub⟩
    · exact .inr ⟨k, r :: mid, r', rest, rfl, hpub⟩

/-- Nothing of an index is held once it is invalidated. -/
theorem invalidate_mirrors (hash : Hasher) (h : s.cache.Mirrors m) (index : Int64) :
    ∃ m', (s.serve hash (.invalidate index)).cache.Mirrors m' ∧
      ∀ e ∈ m'.entries, e.index ≠ index := by
  obtain ⟨m', h', -, hentries⟩ := serve_mirrors hash h (.invalidate index)
  refine ⟨m', h', fun e he => ?_⟩
  rcases hentries e he with ⟨-, hne⟩ | ⟨k, p, now, c, recorder, hr, -⟩
  · exact hne index rfl
  · cases hr

/-! ## Where records come from -/

/-- A record is not taken up again once it is closed. -/
theorem inFlight_of_pull {c : Client σ} {p : Pull} {cache : Cache} {ms : List Match}
    (h : Client.InFlight { c with ranker := (c.ranker.pull hash p now cache).2.1, taken := ms }) :
    c.InFlight := by
  obtain ⟨r', hr', hdraft⟩ := h
  cases hranker : c.ranker with
  | replay r =>
    rw [hranker] at hr'
    cases hr'
  | live l =>
    rw [hranker] at hr'
    cases hr'
  | recorded r =>
    rw [hranker] at hr'
    obtain rfl : (r.visit hash ⟨p, now, cache⟩).2.1 = r' := by cases hr'; rfl
    refine ⟨r, hranker, ?_⟩
    rcases Recorder.visit_draft hash ⟨p, now, cache⟩ r with hnone | hmap
    · rw [hnone] at hdraft
      cases hdraft
    · rw [hmap, Option.isSome_map] at hdraft
      exact hdraft

theorem inFlight_before (rs : List (Request σ)) : ∀ {s : Service σ} {k : Nat} {c : Client σ},
    (s.run hash rs).clients[k]? = some c → c.InFlight →
      s.clients.length ≤ k ∨ ∃ c₀, s.clients[k]? = some c₀ ∧ c₀.InFlight := by
  induction rs with
  | nil => exact fun hk hc => .inr ⟨_, hk, hc⟩
  | cons r rs ih =>
    intro s k c hk hc
    rcases ih hk hc with hnew | ⟨c₁, hk₁, hc₁⟩
    · exact .inl (Nat.le_trans (clients_le_serve r s) hnew)
    · rcases serve_clients hk₁ with hk₀ | ⟨p, now, c₀, rfl, hk₀, rfl⟩ | ⟨hnew, -⟩
      · exact .inr ⟨c₁, hk₀, hc₁⟩
      · exact .inr ⟨c₀, hk₀, inFlight_of_pull hc₁⟩
      · exact .inl (Nat.le_of_eq hnew.symm)

theorem PublishedIn.inFlight {rs : List (Request σ)} {k : Nat} (h : s.PublishedIn hash rs k e) :
    s.clients.length ≤ k ∨ ∃ c, s.clients[k]? = some c ∧ c.InFlight := by
  obtain ⟨mid, -, -, -, p, now, c, recorder, -, hk, hranker, hpub⟩ := h
  obtain ⟨d, hd, -⟩ := hpub.filed
  exact inFlight_before mid hk ⟨recorder, hranker, by rw [hd]; rfl⟩

/-! ## A late publication -/

theorem stream_of_one :
    (Writer.empty.append ⟨100, 5⟩).finish =
      { bytes := #[1, 200, 1, 0], weights := #[5], total := 1 } := by
  rw [Writer.append_empty]
  decide +kernel

/-- A search is begun, its index is invalidated, the ranker of the search is pulled to its end, and a
lookup is given what that has recorded. -/
theorem late_hit :
    let s := (create { thresholdMs := 0 }).run mixing
      [.search ⟨0, 7⟩ 1 { text := "rust" } {} (.ok (VectorRanker.ofList [⟨100, 5⟩]))]
    ∃ e : Entry, e.unpack = .ok #[⟨100, 5⟩] ∧
      ((s.serve mixing (.invalidate 1)).run mixing
        [.pull 0 .one ⟨1, 1000000⟩, .pull 0 .one ⟨2, 2000007⟩]).Hits mixing ⟨3, 3000000⟩ 1
          { text := "rust" } {} e := by
  intro s
  have hs : s = serve mixing
      (.search ⟨0, 7⟩ 1 { text := "rust" } {} (.ok (VectorRanker.ofList [⟨100, 5⟩])))
      (create { thresholdMs := 0 }) := rfl
  rw [serve_search_miss _ _ (Cache.lookup_empty rfl) rfl] at hs
  -- the second pull stores the record in what the invalidation has left
  have hcache : ((s.serve mixing (.invalidate 1)).run mixing
        [.pull 0 .one ⟨1, 1000000⟩, .pull 0 .one ⟨2, 2000007⟩]).cache =
      (Cache.store mixing { text := "rust" }
        (((Draft.start 1).pushAll [⟨100, 5⟩]).finish 2 2000000) {}
        ((Cache.create { thresholdMs := 0 }).countMiss.invalidate 1).2).2 := by
    rw [hs]
    rfl
  have htakes : Config.Takes (Cache.filed mixing { text := "rust" } {}
      (((Draft.start 1).pushAll [⟨100, 5⟩]).finish 2 2000000)) { thresholdMs := 0 } := by
    refine ⟨rfl, by decide, ?_⟩
    show 96 + (Writer.empty.append ⟨100, 5⟩).finish.bytes.size +
      4 * (Writer.empty.append ⟨100, 5⟩).finish.weights.size + 8 * 0 ≤ 16777216
    rw [stream_of_one]
    decide
  have hmirrors : (Cache.create { thresholdMs := 0 }).countMiss.Mirrors _ :=
    (Cache.create_mirrors _).congr rfl rfl
  have hfound := (hmirrors.invalidate 1).2.find_stored mixing 3 htakes rfl rfl
  rw [← hcache] at hfound
  exact ⟨Cache.filed _ _ _ _,
    (Cache.filed_unpack _ _ _ _).trans (Draft.finish_unpack 1 [⟨100, 5⟩] 2 2000000),
    .inl hfound⟩

/-! ## Freshness -/

/-- Whatever is asked of the service before and after, an entry that a lookup or a search on an index
is given was published after the index was last invalidated: its record was completed then, and it
was begun then too, or was in flight at that moment. -/
theorem hit_published_since {config : Config} {earlier later : List (Request σ)}
    (h : ((((create config).run hash earlier).serve hash (.invalidate index)).run hash later).Hits
      hash now index query schema e) :
    let s := (create config).run hash earlier
    e.index = index ∧ ∃ k, (s.serve hash (.invalidate index)).PublishedIn hash later k e ∧
      (s.clients.length ≤ k ∨ ∃ c, s.clients[k]? = some c ∧ c.InFlight) := by
  intro s
  obtain ⟨m, hm, -⟩ := run_mirrors hash earlier (s := create config)
    (Cache.create_mirrors config)
  obtain ⟨m₁, hm₁, hnone⟩ := invalidate_mirrors hash hm index
  obtain ⟨m₂, hm₂, hentries⟩ := run_mirrors hash later hm₁
  obtain ⟨hmem, -, hindex, -⟩ := hm₂.find_hit h.lookup
  rcases hentries e hmem with he | ⟨k, hpub⟩
  · exact absurd hindex (hnone e he)
  · exact ⟨hindex, k, hpub, hpub.inFlight⟩

/-- A hit on what a recorder in flight published. -/
theorem late_hit_published :
    let s := (create { thresholdMs := 0 }).run mixing
      [.search ⟨0, 7⟩ 1 { text := "rust" } {} (.ok (VectorRanker.ofList [⟨100, 5⟩]))]
    let later : List (Request VectorRanker) :=
      [.pull 0 .one ⟨1, 1000000⟩, .pull 0 .one ⟨2, 2000007⟩]
    ∃ e : Entry, ((s.serve mixing (.invalidate 1)).run mixing later).Hits mixing ⟨3, 3000000⟩ 1
        { text := "rust" } {} e ∧
      e.index = 1 ∧ ∃ k, (s.serve mixing (.invalidate 1)).PublishedIn mixing later k e ∧
        (s.clients.length ≤ k ∨ ∃ c, s.clients[k]? = some c ∧ c.InFlight) := by
  intro s later
  obtain ⟨e, -, hhits⟩ := late_hit
  exact ⟨e, hhits, hit_published_since hhits⟩

/-- The entry was recorded by a search from before the invalidation. -/
theorem stale_hit :
    let s := (create { thresholdMs := 0 }).run mixing
      [.search ⟨0, 7⟩ 1 { text := "rust" } {} (.ok (VectorRanker.ofList [⟨100, 5⟩]))]
    let later : List (Request VectorRanker) :=
      [.pull 0 .one ⟨1, 1000000⟩, .pull 0 .one ⟨2, 2000007⟩]
    ∃ e : Entry, e.unpack = .ok #[⟨100, 5⟩] ∧
      ((s.serve mixing (.invalidate 1)).run mixing later).Hits mixing ⟨3, 3000000⟩ 1
        { text := "rust" } {} e ∧
      ¬ ∃ k, (s.serve mixing (.invalidate 1)).PublishedIn mixing later k e ∧
        s.clients.length ≤ k := by
  intro s later
  obtain ⟨e, hunpack, hhits⟩ := late_hit
  refine ⟨e, hunpack, hhits, ?_⟩
  rintro ⟨k, ⟨mid, r, rest, hlater, p, now, c, recorder, rfl, -⟩, hk⟩
  have hmem : Request.pull k p now ∈ later := by
    rw [hlater]
    simp
  have hlength : s.clients.length = 1 := by
    show (serve mixing (.search ..) (create _)).clients.length = 1
    rw [serve_search_miss _ _ (Cache.lookup_empty rfl) rfl]
    rfl
  -- both pulls are on the only client
  have hfirst : k = 0 := by
    rcases List.mem_pair.1 hmem with h | h <;> cases h <;> rfl
  omega

end Service

end ResultCache
