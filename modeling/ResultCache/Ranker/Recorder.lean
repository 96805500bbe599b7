/-
Recording a ranker while its matches pass through. When the ranker reports its end, the recorded
stream is offered to the cache; that happens once, and not at all if a pull failed before or the
consumer stops early. The consumer sees nothing of it: every answer is the ranker's own.
-/
import ResultCache.Query.Fingerprint
import ResultCache.Ranker.Basic
import ResultCache.Table.Cache

namespace ResultCache

universe u

/-- Offers the entry of a finished query to the cache, which takes it if the query was slow enough.
The answer tells whether it is now held. -/
def Cache.store (hash : Hasher) (query : Query) (entry : Entry) (schema : Schema) (c : Cache) :
    Bool × Cache :=
  if c.policy.shouldStore entry.elapsedMs then
    c.add (entry.withFingerprint
      (Fingerprint.ofQuery hash entry.index query (schema.signature hash)))
  else (false, c)

/-- A ranker and the record of what it delivers. -/
structure Recorder (σ : Type u) where
  inner : σ
  /-- The record, until it is offered or given up. -/
  draft : Option Draft
  query : Query
  schema : Schema
  /-- When the query started, on the steady clock. -/
  startedAt : Instant
  /-- Whether the cache took the record, once it was offered. -/
  stored : Option Bool := none

/-- A recorder at work: with the cache it offers its record to, the hasher in use and the time of
the pull. -/
structure Recording (σ : Type u) where
  recorder : Recorder σ
  cache : Cache
  hash : Hasher
  now : Moment

namespace Recorder

/-- Starts recording a query that started at `startedAt`. -/
def start {σ : Type u} (inner : σ) (draft : Draft) (query : Query) (schema : Schema)
    (startedAt : Instant) : Recorder σ :=
  { inner, draft := some draft, query, schema, startedAt }

end Recorder

namespace Recording

variable {σ : Type u}

/-- Offers the record, if there still is one. -/
def complete (r : Recording σ) : Recording σ :=
  match r.recorder.draft with
  | none => r
  | some draft =>
    let elapsed := (r.now.steady - r.recorder.startedAt).toNat
    let (stored, cache) :=
      r.cache.store r.hash r.recorder.query (draft.finish r.now.wall elapsed) r.recorder.schema
    { r with cache, recorder := { r.recorder with draft := none, stored := some stored } }

/-- Gives the record up. -/
def abandon (r : Recording σ) : Recording σ :=
  { r with recorder := { r.recorder with draft := none } }

/-- Adds matches to the record, if there still is one. -/
def note (ms : List Match) (r : Recording σ) : Recording σ :=
  { r with recorder := { r.recorder with draft := r.recorder.draft.map (Draft.pushAll ms) } }

/-- The recording with its ranker moved on. -/
def withInner (inner : σ) (r : Recording σ) : Recording σ :=
  { r with recorder := { r.recorder with inner } }

@[simp] theorem complete_inner (r : Recording σ) : r.complete.recorder.inner = r.recorder.inner := by
  unfold complete; split <;> rfl

variable [Ranker σ]

def nextMatch (r : Recording σ) : Except CacheError (Option Match) × Recording σ :=
  match Ranker.nextMatch r.recorder.inner with
  | (.error e, inner) => (.error e, (r.withInner inner).abandon)
  | (.ok none, inner) => (.ok none, (r.withInner inner).complete)
  | (.ok (some m), inner) => (.ok (some m), (r.withInner inner).note [m])

def nextBlock (r : Recording σ) (out : Array Match) :
    Except CacheError Nat × Array Match × Recording σ :=
  match Ranker.nextBlock r.recorder.inner out with
  | (.error e, out', inner) => (.error e, out', (r.withInner inner).abandon)
  | (.ok 0, out', inner) => (.ok 0, out', (r.withInner inner).complete)
  | (.ok (n + 1), out', inner) =>
    -- the matches that were on the list before are not the ranker's
    (.ok (n + 1), out', (r.withInner inner).note (out'.extract out.size out'.size).toList)

theorem nextBlock_left_lt [Ranker.Bounded σ] {r r' : Recording σ} {out out' : Array Match} {n : Nat}
    (h : r.nextBlock out = (.ok (n + 1), out', r')) :
    Ranker.Bounded.left r'.recorder.inner < Ranker.Bounded.left r.recorder.inner := by
  unfold nextBlock at h
  split at h
  · cases h
  · cases h
  · rename_i hb
    cases h
    exact Ranker.Bounded.left_lt_of_block hb

instance : Ranker (Recording σ) where
  nextMatch := nextMatch
  nextBlock := nextBlock

instance [Ranker.Bounded σ] : Ranker.Bounded (Recording σ) where
  left r := Ranker.Bounded.left r.recorder.inner
  left_lt_of_block := nextBlock_left_lt

end Recording

/-- Answers one request to a recorder at `now`, which may change the cache. -/
def Recorder.pull {σ : Type u} [Ranker σ] [Ranker.Bounded σ] (hash : Hasher) (p : Pull)
    (now : Moment) (cache : Cache) (r : Recorder σ) : Reply × Recorder σ × Cache :=
  let (reply, r) := Ranker.pull p { recorder := r, cache, hash, now : Recording σ }
  (reply, r.recorder, r.cache)

end ResultCache
