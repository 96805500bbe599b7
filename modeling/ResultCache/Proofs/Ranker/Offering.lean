/-
Offering a record to the cache. A record is offered at the first pull that reports the end, unless
one that failed came before, and never again: `Recorder.Kept` is what the first final signal has
made of it. What is offered holds the matches handed out until then; whether the cache takes it is
decided at that moment, by `Config.Takes`.
-/
import ResultCache.Proofs.Ranker.Recording
import ResultCache.Proofs.Table.Admission
import ResultCache.Query.Mixing

namespace ResultCache

universe u

/-! ## What a signal does to a record -/

namespace Signal

/-- Whether nothing is recorded behind the signal. -/
def isFinal : Signal → Bool
  | .more => false
  | _ => true

end Signal

namespace Recording

variable {σ : Type u} {signal : Signal} {ms : List Match} {inner : σ} {r : Recording σ}

/-- Whatever is signalled, only the ranker, the record and the cache change. -/
theorem follow_frame (signal : Signal) (ms : List Match) (inner : σ) (r : Recording σ) :
    (r.follow signal ms inner).recorder.inner = inner ∧
      (r.follow signal ms inner).recorder.query = r.recorder.query ∧
      (r.follow signal ms inner).recorder.schema = r.recorder.schema ∧
      (r.follow signal ms inner).recorder.startedAt = r.recorder.startedAt := by
  obtain ⟨⟨inner₀, draft, query, schema, startedAt, stored⟩, cache, hash, now⟩ := r
  cases signal <;> cases draft <;> exact ⟨rfl, rfl, rfl, rfl⟩

/-- A record that is kept goes on with what was handed out. -/
theorem follow_draft (signal : Signal) (ms : List Match) (inner : σ) (r : Recording σ) :
    (r.follow signal ms inner).recorder.draft = none ∨
      (r.follow signal ms inner).recorder.draft = r.recorder.draft.map (Draft.pushAll ms) := by
  obtain ⟨⟨inner₀, draft, query, schema, startedAt, stored⟩, cache, hash, now⟩ := r
  cases signal with
  | more => exact .inr rfl
  | failed e => exact .inl rfl
  | ended => cases draft <;> exact .inl rfl

/-- Without a record nothing is offered. -/
theorem follow_closed (h : r.recorder.draft = none) :
    (r.follow signal ms inner).recorder.draft = none ∧
      (r.follow signal ms inner).recorder.stored = r.recorder.stored ∧
      (r.follow signal ms inner).cache = r.cache := by
  obtain ⟨⟨inner₀, draft, query, schema, startedAt, stored⟩, cache, hash, now⟩ := r
  cases h
  cases signal <;> exact ⟨rfl, rfl, rfl⟩

/-- Only the end offers a record. -/
theorem follow_not_ended (h : signal ≠ .ended) :
    (r.follow signal ms inner).recorder.draft =
        (if signal.isFinal then none else r.recorder.draft.map (Draft.pushAll ms)) ∧
      (r.follow signal ms inner).recorder.stored = r.recorder.stored ∧
      (r.follow signal ms inner).cache = r.cache := by
  cases signal with
  | ended => exact absurd rfl h
  | more => exact ⟨rfl, rfl, rfl⟩
  | failed e => exact ⟨rfl, rfl, rfl⟩

/-- The end offers the record. -/
theorem follow_ended {d : Draft} (h : r.recorder.draft = some d) :
    let offered := r.cache.store r.hash r.recorder.query
      ((d.pushAll ms).finish r.now.wall (r.now.steady - r.recorder.startedAt).toNat) r.recorder.schema
    (r.follow .ended ms inner).recorder.draft = none ∧
      (r.follow .ended ms inner).recorder.stored = some offered.1 ∧
      (r.follow .ended ms inner).cache = offered.2 := by
  obtain ⟨⟨inner₀, draft, query, schema, startedAt, stored⟩, cache, hash, now⟩ := r
  cases h
  exact ⟨rfl, rfl, rfl⟩

end Recording

/-! ## Pulls on a recorder -/

/-- A pull on a recorder, with the cache it meets. -/
structure Visit where
  pull : Pull
  now : Moment
  cache : Cache

namespace Recorder

variable {σ : Type u} [Ranker σ] [Ranker.Bounded σ]

/-- The reply, the recorder and the cache after a visit. -/
def visit (hash : Hasher) (v : Visit) (r : Recorder σ) : Reply × Recorder σ × Cache :=
  r.pull hash v.pull v.now v.cache

/-- The matches handed out on a visit. -/
def taken (hash : Hasher) (v : Visit) (r : Recorder σ) : List Match :=
  Ranker.taken v.pull { recorder := r, cache := v.cache, hash, now := v.now : Recording σ }

/-- The recorder after some visits. -/
def after (hash : Hasher) (vs : List Visit) (r : Recorder σ) : Recorder σ :=
  vs.foldl (fun r v => (r.visit hash v).2.1) r

/-- The matches handed out on some visits, in order. -/
def forwarded (hash : Hasher) : List Visit → Recorder σ → List Match
  | [], _ => []
  | v :: vs, r => r.taken hash v ++ forwarded hash vs (r.visit hash v).2.1

/-- What some visits were told. -/
def signals (hash : Hasher) : List Visit → Recorder σ → List Signal
  | [], _ => []
  | v :: vs, r =>
    (r.visit hash v).1.signal :: signals hash vs (r.visit hash v).2.1

/-- What the first final signal has made of a recorder that has handed out `ms` since `r₀`. -/
structure Kept (r₀ : Recorder σ) (ms : List Match) (final : Option Signal) (r : Recorder σ) : Prop where
  query : r.query = r₀.query
  schema : r.schema = r₀.schema
  startedAt : r.startedAt = r₀.startedAt
  draft : r.draft = if final.isSome then none else r₀.draft.map (Draft.pushAll ms)
  stored : r.stored.isSome = (final == some .ended)

variable [LawfulRanker σ] {hash : Hasher} {r₀ r : Recorder σ} {ms : List Match} {final : Option Signal}

theorem visit_eq (hash : Hasher) (v : Visit) (r : Recorder σ) :
    let after := Recording.follow (Ranker.pull v.pull r.inner).1.signal (r.taken hash v)
      (Ranker.pull v.pull r.inner).2 { recorder := r, cache := v.cache, hash, now := v.now }
    r.visit hash v = ((Ranker.pull v.pull r.inner).1, after.recorder, after.cache) := by
  obtain ⟨hpull, htaken⟩ :=
    Recording.pull_eq v.pull { recorder := r, cache := v.cache, hash, now := v.now : Recording σ }
  unfold visit pull taken
  rw [htaken, hpull]

theorem taken_eq (hash : Hasher) (v : Visit) (r : Recorder σ) :
    r.taken hash v = Ranker.taken v.pull r.inner :=
  (Recording.pull_eq v.pull { recorder := r, cache := v.cache, hash, now := v.now : Recording σ }).2

theorem visit_frame (hash : Hasher) (v : Visit) (r : Recorder σ) :
    (r.visit hash v).2.1.inner = (Ranker.pull v.pull r.inner).2 ∧
      (r.visit hash v).2.1.query = r.query ∧
      (r.visit hash v).2.1.schema = r.schema ∧
      (r.visit hash v).2.1.startedAt = r.startedAt := by
  rw [visit_eq]
  exact Recording.follow_frame _ _ _ { recorder := r, cache := v.cache, hash, now := v.now }

theorem visit_draft (hash : Hasher) (v : Visit) (r : Recorder σ) :
    (r.visit hash v).2.1.draft = none ∨
      (r.visit hash v).2.1.draft = r.draft.map (Draft.pushAll (r.taken hash v)) := by
  rw [visit_eq]
  exact Recording.follow_draft _ _ _ { recorder := r, cache := v.cache, hash, now := v.now }

/-- With a final signal behind it, a recorder offers nothing. -/
theorem Kept.visit_final (h : Kept r₀ ms final r) (hfinal : final.isSome) (v : Visit) :
    (r.visit hash v).2.1.draft = none ∧
      (r.visit hash v).2.1.stored = r.stored ∧
      (r.visit hash v).2.2 = v.cache := by
  have hdraft : r.draft = none := by rw [h.draft, if_pos hfinal]
  rw [visit_eq]
  exact Recording.follow_closed hdraft

/-- Before the end a recorder offers nothing. -/
theorem visit_not_ended {v : Visit} (hsignal : (r.visit hash v).1.signal ≠ .ended) :
    (r.visit hash v).2.1.draft =
        (if (r.visit hash v).1.signal.isFinal then none
          else r.draft.map (Draft.pushAll (r.taken hash v))) ∧
      (r.visit hash v).2.1.stored = r.stored ∧
      (r.visit hash v).2.2 = v.cache := by
  rw [visit_eq] at hsignal ⊢
  exact Recording.follow_not_ended hsignal

/-- The end offers the record. -/
theorem visit_ended {d : Draft} (hd : r.draft = some d) {v : Visit}
    (hsignal : (r.visit hash v).1.signal = .ended) :
    let offered := v.cache.store hash r.query
      ((d.pushAll (r.taken hash v)).finish v.now.wall (v.now.steady - r.startedAt).toNat) r.schema
    (r.visit hash v).2.1.draft = none ∧
      (r.visit hash v).2.1.stored = some offered.1 ∧
      (r.visit hash v).2.2 = offered.2 := by
  rw [visit_eq] at hsignal ⊢
  rw [hsignal]
  exact Recording.follow_ended (r := { recorder := r, cache := v.cache, hash, now := v.now }) hd

/-- What the first end offers is all that was handed out. -/
theorem Kept.visit_ended (h : Kept r₀ ms none r) {d : Draft} (hd : r₀.draft = some d) {v : Visit}
    (hsignal : (r.visit hash v).1.signal = .ended) :
    let offered := v.cache.store hash r₀.query
      ((d.pushAll (ms ++ r.taken hash v)).finish v.now.wall (v.now.steady - r₀.startedAt).toNat)
      r₀.schema
    (r.visit hash v).2.1.draft = none ∧
      (r.visit hash v).2.1.stored = some offered.1 ∧
      (r.visit hash v).2.2 = offered.2 := by
  have hdraft : r.draft = some (d.pushAll ms) := by
    rw [h.draft, hd]
    rfl
  rw [Draft.pushAll_append, ← h.query, ← h.schema, ← h.startedAt]
  exact Recorder.visit_ended hdraft hsignal

theorem Kept.visit (hash : Hasher) (h : Kept r₀ ms final r) (hd : r₀.draft.isSome) (v : Visit) :
    Kept r₀ (ms ++ r.taken hash v)
      (final.or (Option.guard Signal.isFinal (r.visit hash v).1.signal))
      (r.visit hash v).2.1 := by
  obtain ⟨d, hd⟩ := Option.isSome_iff_exists.1 hd
  obtain ⟨-, hquery, hschema, hstarted⟩ := visit_frame hash v r
  refine ⟨hquery.trans h.query, hschema.trans h.schema, hstarted.trans h.startedAt, ?_, ?_⟩
  · cases final with
    | some s => exact (h.visit_final rfl v).1
    | none =>
      by_cases hsignal : (r.visit hash v).1.signal = .ended
      · rw [hsignal]
        exact (h.visit_ended hd hsignal).1
      · rw [(visit_not_ended hsignal).1, h.draft, hd]
        cases hs : (r.visit hash v).1.signal <;>
          simp [Signal.isFinal, Option.guard, Draft.pushAll_append]
  · cases final with
    | some s =>
      rw [(h.visit_final rfl v).2.1]
      exact h.stored
    | none =>
      by_cases hsignal : (r.visit hash v).1.signal = .ended
      · rw [hsignal, (h.visit_ended hd hsignal).2.1]
        rfl
      · rw [(visit_not_ended hsignal).2.1, h.stored]
        cases hs : (r.visit hash v).1.signal <;>
          simp_all [Signal.isFinal, Option.guard]

theorem Kept.after (hash : Hasher) (hd : r₀.draft.isSome) (vs : List Visit) :
    ∀ {r : Recorder σ} {ms : List Match} {final : Option Signal}, Kept r₀ ms final r →
      Kept r₀ (ms ++ r.forwarded hash vs) (final.or ((r.signals hash vs).find? Signal.isFinal))
        (r.after hash vs) := by
  induction vs with
  | nil =>
    intro r ms final h
    rwa [forwarded, signals, List.find?_nil, Option.or_none, List.append_nil]
  | cons v vs ih =>
    intro r ms final h
    have hrest := ih (h.visit hash hd v)
    rw [forwarded, signals, List.find?_cons, ← List.append_assoc]
    have hfinal : ∀ (s : Signal) (rest : Option Signal),
        (final.or (Option.guard Signal.isFinal s)).or rest =
          final.or (match s.isFinal with | true => some s | false => rest) := by
      intro s rest
      cases final <;> cases s <;> rfl
    rwa [hfinal] at hrest

/-- On a visit the record is completed, and the cache takes it as the entry `e`. -/
structure Publishes (hash : Hasher) (v : Visit) (e : Entry) (r : Recorder σ) : Prop where
  ended : (r.visit hash v).1.signal = .ended
  filed : ∃ d, r.draft = some d ∧ e = Cache.filed hash r.query r.schema
    ((d.pushAll (r.taken hash v)).finish v.now.wall (v.now.steady - r.startedAt).toNat)
  taken : v.cache.config.Takes e

/-- A visit leaves the cache alone, or it reports the end and offers the record. -/
theorem visit_cache (hash : Hasher) (v : Visit) (r : Recorder σ) :
    (r.visit hash v).2.2 = v.cache ∨ ∃ d, (r.visit hash v).1.signal = .ended ∧ r.draft = some d ∧
      (r.visit hash v).2.2 = (v.cache.store hash r.query
        ((d.pushAll (r.taken hash v)).finish v.now.wall (v.now.steady - r.startedAt).toNat)
        r.schema).2 := by
  by_cases hsignal : (r.visit hash v).1.signal = .ended
  · cases hd : r.draft with
    | none =>
      left
      rw [visit_eq]
      exact (Recording.follow_closed
        (r := { recorder := r, cache := v.cache, hash, now := v.now }) hd).2.2
    | some d => exact .inr ⟨d, hsignal, rfl, (visit_ended hd hsignal).2.2⟩
  · exact .inl (visit_not_ended hsignal).2.2

/-- A pull adds nothing to the cache but what it publishes. -/
theorem visit_mirrors {v : Visit} {m : Shelf} (h : v.cache.Mirrors m) (r : Recorder σ) :
    ∃ m', (r.visit hash v).2.2.Mirrors m' ∧ m'.config = m.config ∧
      ∀ e ∈ m'.entries, e ∈ m.entries ∨ r.Publishes hash v e := by
  rcases r.visit_cache hash v with hsame | ⟨d, hended, hd, hstore⟩
  · rw [hsame]
    exact ⟨m, h, rfl, fun e he => .inl he⟩
  · rw [hstore]
    refine ⟨_, (h.store _ _ _ _).2, Shelf.config_offer _ m, fun e he => ?_⟩
    refine (Shelf.mem_offer he).imp_right ?_
    rintro ⟨rfl, htaken⟩
    exact ⟨hended, ⟨d, hd, rfl⟩, by rwa [h.config]⟩

/-- A record is offered once at most, at the first end that no failure came before. What is offered
holds all matches handed out until then, in order, and is taken by a cache that is turned on, if the
query was slow enough and the entry, with the hashes of its filters, fits into the budget; an entry
that is taken is then held under the fingerprint of the query. Behind a failure and before the end
nothing is offered, and once something was, that stays as it is. -/
theorem pull_after_visits (hash : Hasher) (inner : σ) (index : Int64) (query : Query) (schema : Schema)
    (startedAt : Instant) (visits : List Visit) (config : Config) (ops : List Operation) (p : Pull)
    (now : Moment) :
    let r₀ := start inner (Draft.start index) query schema startedAt
    let r := r₀.after hash visits
    let final := (r₀.signals hash visits).find? Signal.isFinal
    let cache := ((Cache.create config).run ops).2
    let handed := r₀.forwarded hash visits ++ r.taken hash ⟨p, now, cache⟩
    let entry := Cache.filed hash query schema
      (((Draft.start index).pushAll handed).finish now.wall (now.steady - startedAt).toNat)
    let signal := (r.pull hash p now cache).1.signal
    let r' := (r.pull hash p now cache).2.1
    let cache' := (r.pull hash p now cache).2.2
    (r.stored.isSome = true ↔ final = some .ended) ∧
    (final ≠ none ∨ signal ≠ .ended → r'.stored = r.stored ∧ cache' = cache) ∧
    (final = none ∧ signal = .ended →
      r'.stored = some (decide (cache.config.Takes entry)) ∧
      (cache.config.Takes entry → cache'.peek? entry.key = some entry) ∧
      (¬ cache.config.Takes entry → cache'.entries = cache.entries)) ∧
    entry.unpack = .ok handed.toArray ∧
    entry.index = index ∧
    (⟨entry.key, entry.filterHashes⟩ : Fingerprint) =
      Fingerprint.ofQuery hash index query (schema.signature hash) ∧
    entry.builtAt = now.wall ∧
    entry.elapsedMs.toNat = min ((now.steady - startedAt).toNat / 1000000) (UInt32.size - 1) := by
  intro r₀ r final cache handed entry signal r' cache'
  have hstart : Kept r₀ [] none r₀ := ⟨rfl, rfl, rfl, rfl, rfl⟩
  have h := hstart.after hash rfl visits
  rw [Option.none_or, List.nil_append] at h
  have hindex : ((Draft.start index).pushAll handed).index = index := Draft.pushAll_index handed _
  refine ⟨?_, ?_, ?_, Draft.finish_unpack index handed now.wall (now.steady - startedAt).toNat,
    hindex, ?_, rfl, milliseconds_toNat _⟩
  · rw [h.stored]
    exact beq_iff_eq
  · rintro (hfinal | hsignal)
    · exact (h.visit_final (Option.isSome_iff_ne_none.2 hfinal) ⟨p, now, cache⟩).2
    · exact (visit_not_ended (v := ⟨p, now, cache⟩) hsignal).2
  · rintro ⟨hfinal, hsignal⟩
    rw [show (r₀.signals hash visits).find? Signal.isFinal = none from hfinal] at h
    obtain ⟨-, hstored, hcache⟩ := h.visit_ended (v := ⟨p, now, cache⟩) rfl hsignal
    obtain ⟨hanswer, hheld, hrefused⟩ :=
      (Cache.run_mirrors config ops).2.store_outcome hash query schema
      (((Draft.start index).pushAll handed).finish now.wall (now.steady - startedAt).toNat)
    rw [show r'.stored = _ from hstored, show cache' = _ from hcache]
    exact ⟨congrArg some hanswer, hheld, hrefused⟩
  · show Fingerprint.ofQuery hash ((Draft.start index).pushAll handed).index query
      (schema.signature hash) = _
    rw [hindex]

theorem stream_of_two :
    ((Writer.empty.append ⟨100, 5⟩).append ⟨50, 5⟩).finish =
      { bytes := #[2, 200, 1, 0, 99, 0], weights := #[5], total := 2 } := by
  rw [Writer.append_empty]
  unfold Writer.append
  -- the weight of the first match is that of the second
  rw [Writer.intern_held Std.HashMap.getElem?_insert_self]
  decide +kernel

/-- Two matches, pulled one by one and as a block, are offered and held when their end is reported. -/
theorem two_matches_offered :
    let config : Config := { maxBytes := 1000, thresholdMs := 3 }
    let r := (start (VectorRanker.ofList [⟨100, 5⟩, ⟨50, 5⟩]) (Draft.start 7)
      { text := "rust cache" } {} 1000000).after mixing
        [⟨.one, ⟨86400, 2000000⟩, Cache.create config⟩,
          ⟨.block #[], ⟨86401, 3000000⟩, Cache.create config⟩]
    let last := r.pull mixing .one ⟨86402, 5000000⟩ (Cache.create config)
    ∃ entry : Entry, last.2.1.stored = some true ∧ last.2.2.peek? entry.key = some entry ∧
      entry.unpack = .ok #[⟨100, 5⟩, ⟨50, 5⟩] ∧ entry.builtAt = 86402 ∧ entry.elapsedMs.toNat = 4 := by
  intro config r last
  obtain ⟨-, -, hoffer, hunpack, -, -, hbuilt, helapsed⟩ := pull_after_visits mixing
    (VectorRanker.ofList [⟨100, 5⟩, ⟨50, 5⟩]) 7 { text := "rust cache" } {} 1000000
    [⟨.one, ⟨86400, 2000000⟩, Cache.create config⟩,
      ⟨.block #[], ⟨86401, 3000000⟩, Cache.create config⟩] config [] .one ⟨86402, 5000000⟩
  have htakes : config.Takes (Cache.filed mixing { text := "rust cache" } {}
      (((Draft.start 7).pushAll [⟨100, 5⟩, ⟨50, 5⟩]).finish 86402 4000000)) := by
    refine ⟨rfl, by decide, ?_⟩
    show 96 + ((Writer.empty.append ⟨100, 5⟩).append ⟨50, 5⟩).finish.bytes.size +
      4 * ((Writer.empty.append ⟨100, 5⟩).append ⟨50, 5⟩).finish.weights.size + 8 * 0 ≤ 1000
    rw [stream_of_two]
    decide
  obtain ⟨hstored, hheld, -⟩ := hoffer ⟨rfl, rfl⟩
  exact ⟨_, hstored.trans (congrArg some (decide_eq_true htakes)), hheld htakes, hunpack, hbuilt,
    helapsed⟩

end Recorder

end ResultCache
