/-
Replaying an entry through the ranker interface. Frames are read one at a time; a single pull takes
the next match of the frame at hand, a block takes the rest of that frame or else a whole one. Once
a frame turns out damaged, every later pull reports the same damage.
-/
import ResultCache.Entry
import ResultCache.Ranker.Basic

namespace ResultCache

/-- An entry being replayed. -/
structure Replay where
  entry : Entry
  reader : Reader
  /-- What is left of the frame at hand. -/
  unread : List Match := []
  /-- The damage that was met. -/
  failure : Option Damage := none
  deriving DecidableEq, Repr, Inhabited

namespace Replay

/-- The replay of an entry from its first match. -/
def start (e : Entry) : Replay := { entry := e, reader := Reader.start e.stream.total }

/-- The replay of an entry for a query on `index`, which the entry has to belong to. -/
def startFor (index : Int64) (e : Entry) : Except CacheError Replay :=
  if e.index = index then .ok (start e)
  else .error (.invalidOperation (.foreignEntry e.index index))

/-- The matches not yet handed out. -/
def remaining (r : Replay) : Nat := r.reader.remaining + r.unread.length

/-- Reads the next frame, remembering any damage. The frame itself is left to the caller. -/
def nextFrame (r : Replay) : Except Damage (List Match) × Replay :=
  match r.reader.frame r.entry.stream.bytes r.entry.stream.weights with
  | .ok (ms, reader) => (.ok ms, { r with reader })
  | .error d => (.error d, { r with failure := some d })

def nextMatch (r : Replay) : Except CacheError (Option Match) × Replay :=
  match r.failure with
  | some d => (.error (.corrupt d), r)
  | none =>
    match r.unread with
    | m :: rest => (.ok (some m), { r with unread := rest })
    | [] =>
      match r.nextFrame with
      | (.error d, r') => (.error (.corrupt d), r')
      | (.ok [], r') => (.ok none, r')
      | (.ok (m :: ms), r') => (.ok (some m), { r' with unread := ms })

def nextBlock (r : Replay) (out : Array Match) : Except CacheError Nat × Array Match × Replay :=
  match r.failure with
  | some d => (.error (.corrupt d), out, r)
  | none =>
    match r.unread with
    | m :: rest => (.ok (rest.length + 1), out ++ (m :: rest), { r with unread := [] })
    | [] =>
      match r.nextFrame with
      | (.error d, r') => (.error (.corrupt d), out, r')
      | (.ok ms, r') => (.ok ms.length, out ++ ms, r')

theorem nextFrame_remaining {r r' : Replay} {ms : List Match} (h : r.nextFrame = (.ok ms, r')) :
    r'.reader.remaining + ms.length = r.reader.remaining ∧ r'.unread = r.unread := by
  unfold nextFrame at h
  rcases hf : r.reader.frame r.entry.stream.bytes r.entry.stream.weights with d | ⟨ms', reader⟩
  · rw [hf] at h; cases h
  · rw [hf] at h; cases h
    exact ⟨Reader.frame_remaining hf, rfl⟩

theorem nextBlock_remaining_lt {r r' : Replay} {out out' : Array Match} {n : Nat}
    (h : r.nextBlock out = (.ok (n + 1), out', r')) : r'.remaining < r.remaining := by
  unfold nextBlock at h
  cases hfail : r.failure with
  | some d => rw [hfail] at h; cases h
  | none =>
    rw [hfail] at h
    dsimp only at h
    unfold remaining
    cases hu : r.unread with
    | cons m rest =>
      rw [hu] at h
      cases h
      show r.reader.remaining + 0 < r.reader.remaining + (rest.length + 1)
      omega
    | nil =>
      rw [hu] at h
      dsimp only at h
      rcases hf : r.nextFrame with ⟨d | ms, r₁⟩
      · rw [hf] at h; cases h
      · rw [hf] at h
        simp only [Prod.mk.injEq, Except.ok.injEq] at h
        obtain ⟨hn, -, rfl⟩ := h
        obtain ⟨hr, hu'⟩ := nextFrame_remaining hf
        rw [hu', hu, List.length_nil]
        omega

instance : Ranker Replay where
  nextMatch := nextMatch
  nextBlock := nextBlock

instance : Ranker.Bounded Replay where
  left := remaining
  left_lt_of_block := nextBlock_remaining_lt

end Replay

end ResultCache
