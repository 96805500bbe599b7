/-
What a fingerprint tells. Queries are compared by hashes of their spellings only. As long as a hasher
keeps apart the spellings it is given (`Separates`), the key tells the whole query, and the hashes of
the filters tell the filters in their order: spellings with nothing between them are not confused.
-/
import ResultCache.Proofs.Query.FieldWeights
import ResultCache.Proofs.Query.Spelling
import ResultCache.Proofs.Search.Service
import ResultCache.Query.Mixing

namespace ResultCache

/-! ## Separation -/

/-- The hash tells these sequences of words apart. -/
def Separates (hash : Hasher) (wss : List (List Word)) : Prop :=
  ∀ u ∈ wss, ∀ v ∈ wss, hash u = hash v → u = v

instance (hash : Hasher) (wss : List (List Word)) : Decidable (Separates hash wss) :=
  inferInstanceAs (Decidable (∀ u ∈ wss, ∀ v ∈ wss, hash u = hash v → u = v))

variable {hash : Hasher} {wss : List (List Word)}

theorem Separates.hash_eq_iff (h : Separates hash wss) {u v : List Word}
    (hu : u ∈ wss) (hv : v ∈ wss) : hash u = hash v ↔ u = v :=
  ⟨h u hu v hv, fun huv => huv ▸ rfl⟩

/-! ## Filters and schemas -/

theorem Filter.hash_inj (h : Separates hash wss) {f g : Filter}
    (hf : f.words ∈ wss) (hg : g.words ∈ wss) : f.hash hash = g.hash hash ↔ f = g :=
  (h.hash_eq_iff hf hg).trans words_prefixFree.injective.eq_iff

theorem Filter.map_hash_inj (h : Separates hash wss) {fs : List Filter} :
    ∀ {gs : List Filter}, (∀ f ∈ fs, f.words ∈ wss) → (∀ g ∈ gs, g.words ∈ wss) →
      fs.map (Filter.hash hash) = gs.map (Filter.hash hash) → fs = gs := by
  induction fs with
  | nil => exact fun _ _ hmap => (List.map_eq_nil_iff.1 hmap.symm).symm
  | cons f fs ih =>
    intro gs hfs hgs hmap
    cases gs with
    | nil => cases hmap
    | cons g gs =>
      obtain ⟨hf, hfs⟩ := List.forall_mem_cons.1 hfs
      obtain ⟨hg, hgs⟩ := List.forall_mem_cons.1 hgs
      obtain ⟨hfirst, hrest⟩ := List.cons.inj hmap
      rw [(hash_inj h hf hg).1 hfirst, ih hfs hgs hrest]

theorem Schema.signature_inj (h : Separates hash wss) {s t : Schema}
    (hs : s.words ∈ wss) (ht : t.words ∈ wss) :
    s.signature hash = t.signature hash ↔ s.columns = t.columns := by
  refine ((h.hash_eq_iff hs ht).trans words_injective.eq_iff).trans ?_
  obtain ⟨columns⟩ := s
  obtain ⟨columns'⟩ := t
  simp only [mk.injEq]

/-! ## Queries -/

namespace Identity

/-- The sequences of words that are hashed for the fingerprint of a query. -/
def hashed (hash : Hasher) (i : Identity) : List (List Word) :=
  Fingerprint.keyWords i.index i.query.text i.query.options (i.query.filters.map (Filter.hash hash))
    i.signature :: i.query.filters.map Filter.words

variable {i j : Identity}

/-- Queries are the same if all their parts are, field weights being maps. -/
theorem eq_iff : i = j ↔
    i.index = j.index ∧ i.query.text = j.query.text ∧
      i.query.options.ranking = j.query.options.ranking ∧
      (∀ field, i.query.options.fieldWeights.get? field = j.query.options.fieldWeights.get? field) ∧
      i.query.options.maxMatches = j.query.options.maxMatches ∧
      i.query.options.fields = j.query.options.fields ∧
      i.query.filters = j.query.filters ∧
      i.signature = j.signature := by
  obtain ⟨index, ⟨text, ⟨ranking, weights, maxMatches, fields⟩, filters⟩, signature⟩ := i
  obtain ⟨index', ⟨text', ⟨ranking', weights', maxMatches', fields'⟩, filters'⟩, signature'⟩ := j
  simp only [mk.injEq, Query.mk.injEq, QueryOptions.mk.injEq, FieldWeights.eq_iff_get?, and_assoc]

theorem filterHashes_inj (h : Separates hash wss) (hi : i.hashed hash ⊆ wss)
    (hj : j.hashed hash ⊆ wss) :
    (i.fingerprint hash).filterHashes = (j.fingerprint hash).filterHashes ↔
      i.query.filters = j.query.filters := by
  have hwords : ∀ {k : Identity}, k.hashed hash ⊆ wss → ∀ f ∈ k.query.filters, f.words ∈ wss :=
    fun hk f hf => hk (List.mem_cons_of_mem _ (List.mem_map_of_mem hf))
  exact ⟨Filter.map_hash_inj h (hwords hi) (hwords hj), congrArg (List.map (Filter.hash hash))⟩

theorem key_inj (h : Separates hash wss) (hi : i.hashed hash ⊆ wss) (hj : j.hashed hash ⊆ wss) :
    (i.fingerprint hash).key = (j.fingerprint hash).key ↔ i = j := by
  have hfilters : i.query.filters.map (Filter.hash hash) = j.query.filters.map (Filter.hash hash) ↔
      i.query.filters = j.query.filters := filterHashes_inj h hi hj
  refine (h.hash_eq_iff (hi List.mem_cons_self) (hj List.mem_cons_self)).trans ?_
  rw [Fingerprint.keyWords_inj, hfilters]
  obtain ⟨index, ⟨text, options, filters⟩, signature⟩ := i
  obtain ⟨index', ⟨text', options', filters'⟩, signature'⟩ := j
  simp only [mk.injEq, Query.mk.injEq, and_assoc]

/-- Among queries whose spellings are told apart, fingerprints tell the queries. -/
theorem identifies_of_separates {known : List Identity}
    (h : Separates hash (known.flatMap (hashed hash))) : Identifies hash known := by
  have hsub : ∀ k ∈ known, k.hashed hash ⊆ known.flatMap (hashed hash) :=
    fun k hk ws hws => List.mem_flatMap.2 ⟨k, hk, hws⟩
  intro i hi j hj hsame
  exact (key_inj h (hsub i hi) (hsub j hj)).1 (congrArg Fingerprint.key hsame)

/-! ## Values across boundaries -/

/-- A value leaves one part of a query for the part that is spelled next to it, or for another list. -/
inductive Moves : Identity → Identity → Prop where
  /-- The end of the text becomes a field. -/
  | textToField {i : Identity} {text moved : String} : i.query.text = text ++ moved →
    Moves i { i with query := { i.query with
      text, options := { i.query.options with fields := moved :: i.query.options.fields } } }
  /-- The last value of a filter becomes the first one of the next filter. -/
  | valueToNext {i : Identity} {before after : List Filter} {f g : Filter} {vs us : List Int64}
    {v : Int64} : i.query.filters = before ++ { f with condition := .values (vs ++ [v]) } ::
      { g with condition := .values us } :: after →
    Moves i { i with query := { i.query with filters :=
      before ++ { f with condition := .values vs } ::
        { g with condition := .values (v :: us) } :: after } }
  /-- The last field becomes the first string of the first filter. -/
  | fieldToString {i : Identity} {after : List Filter} {f : Filter} {fields ss : List String}
    {s : String} : i.query.options.fields = fields ++ [s] →
      i.query.filters = { f with condition := .strings ss } :: after →
    Moves i { i with query := { i.query with
      options := { i.query.options with fields }
      filters := { f with condition := .strings (s :: ss) } :: after } }

theorem Moves.ne (h : i.Moves j) : i ≠ j := by
  intro hsame
  cases h with
  | textToField htext =>
    have hfields := congrArg (fun k => k.query.options.fields.length) hsame
    simp at hfields
  | valueToNext hfilters =>
    have hmoved := congrArg (fun k => k.query.filters) hsame
    rw [hfilters] at hmoved
    simp at hmoved
  | fieldToString hfields hfilters =>
    have hmoved := congrArg (fun k => k.query.options.fields) hsame
    rw [hfields] at hmoved
    simp at hmoved

/-- Sets field weights of a query, one after another. -/
def setWeights (ps : List (String × UInt32)) (i : Identity) : Identity :=
  { i with query := { i.query with options := { i.query.options with
    fieldWeights := i.query.options.fieldWeights.insertAll ps } } }

/-- As long as the hash tells the sequences of words apart that it is given, whatever else it does:
queries have one key exactly if they agree in their index, text, ranking, field weights, bound,
fields, filters and schema signature; the hashes of their filters are the same exactly if the
filters are, in order; and schemas have one signature exactly if they have the same columns, in
order. So a value that moves from one part of a query to another changes the key, and the order in
which the weights of different fields are set changes nothing. -/
theorem fingerprint_tells (hash : Hasher) (i j : Identity) (s t : Schema)
    (h : Separates hash (s.words :: t.words :: (i.hashed hash ++ j.hashed hash))) :
    ((i.fingerprint hash).key = (j.fingerprint hash).key ↔
      i.index = j.index ∧ i.query.text = j.query.text ∧
      i.query.options.ranking = j.query.options.ranking ∧
      (∀ field, i.query.options.fieldWeights.get? field = j.query.options.fieldWeights.get? field) ∧
      i.query.options.maxMatches = j.query.options.maxMatches ∧
      i.query.options.fields = j.query.options.fields ∧
      i.query.filters = j.query.filters ∧
      i.signature = j.signature) ∧
    ((i.fingerprint hash).filterHashes = (j.fingerprint hash).filterHashes ↔
      i.query.filters = j.query.filters) ∧
    (s.signature hash = t.signature hash ↔ s.columns = t.columns) ∧
    (i.Moves j → (i.fingerprint hash).key ≠ (j.fingerprint hash).key) ∧
    ∀ ps qs : List (String × UInt32), ps.Perm qs → (ps.map Prod.fst).Nodup →
      (i.setWeights ps).fingerprint hash = (i.setWeights qs).fingerprint hash := by
  have hi : i.hashed hash ⊆ s.words :: t.words :: (i.hashed hash ++ j.hashed hash) :=
    fun ws hws => by simp [hws]
  have hj : j.hashed hash ⊆ s.words :: t.words :: (i.hashed hash ++ j.hashed hash) :=
    fun ws hws => by simp [hws]
  have hkey := key_inj h hi hj
  refine ⟨hkey.trans eq_iff, filterHashes_inj h hi hj, ?_, ?_, ?_⟩
  · exact Schema.signature_inj h (by simp) (by simp)
  · exact fun hmoves hsame => hmoves.ne (hkey.1 hsame)
  · intro ps qs hperm hdistinct
    rw [setWeights, FieldWeights.insertAll_perm hperm hdistinct]
    rfl

/-- A value of one filter becomes one of the next; an expression becomes empty. -/
theorem moved_value_changes_key :
    let filters (vs us : List Int64) : List Filter :=
      [⟨"year", .values vs, false⟩, ⟨"tag", .values us, true⟩]
    let query (vs us : List Int64) : Query :=
      { text := "rust cache", options := { fields := ["title"] }, filters := filters vs us }
    let schema (expr : Option String) : Schema := ⟨[⟨"weight", .integer, expr⟩]⟩
    ((⟨1, query [2023, 2024] [7], 5⟩ : Identity).fingerprint mixing).key ≠
        ((⟨1, query [2023] [2024, 7], 5⟩ : Identity).fingerprint mixing).key ∧
      (schema none).signature mixing ≠ (schema (some "")).signature mixing := by
  intro filters query schema
  obtain ⟨-, -, hsignature, hmoves, -⟩ := fingerprint_tells mixing ⟨1, query [2023, 2024] [7], 5⟩
    ⟨1, query [2023] [2024, 7], 5⟩ (schema none) (schema (some "")) (by decide +kernel)
  have hmoved : Moves ⟨1, query [2023, 2024] [7], 5⟩ ⟨1, query [2023] [2024, 7], 5⟩ :=
    @Moves.valueToNext ⟨1, query [2023, 2024] [7], 5⟩ [] [] ⟨"year", .values [], false⟩
      ⟨"tag", .values [], true⟩ [2023] [7] 2024 rfl
  exact ⟨hmoves hmoved, fun hsame => absurd (hsignature.1 hsame) (by decide)⟩

end Identity

end ResultCache
