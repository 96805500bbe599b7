/-
Rankers that rank nothing themselves: one without matches, one over matches that were computed up
front, and one that is any other ranker, in a box.
-/
import ResultCache.Ranker.Basic

namespace ResultCache

/-! ## Without matches -/

/-- A ranker without matches. -/
structure EmptyRanker where
  deriving DecidableEq, Repr, Inhabited

namespace EmptyRanker

def nextMatch (r : EmptyRanker) : Except CacheError (Option Match) × EmptyRanker := (.ok none, r)

instance : Ranker EmptyRanker where
  nextMatch := nextMatch
  nextBlock := Ranker.fill nextMatch blockCapacity

instance : Ranker.Bounded EmptyRanker where
  left _ := 0
  left_lt_of_block h :=
    have hnever {s s' : EmptyRanker} {m : Match} (hs : s.nextMatch = (.ok (some m), s')) : 0 < 0 := by
      cases hs
    Ranker.fill_left_lt (fun _ => Nat.le_refl 0) hnever h

end EmptyRanker

/-! ## Over matches computed up front -/

/-- Matches computed up front, delivered from the first to the last. -/
structure VectorRanker where
  items : Array Match
  /-- How many have been delivered. -/
  position : Nat := 0
  deriving DecidableEq, Repr, Inhabited

namespace VectorRanker

/-- A ranker that delivers these matches in order. -/
def ofList (ms : List Match) : VectorRanker := { items := ms.toArray }

/-- The matches not yet delivered. -/
def remaining (r : VectorRanker) : Nat := r.items.size - r.position

def nextMatch (r : VectorRanker) : Except CacheError (Option Match) × VectorRanker :=
  match r.items[r.position]? with
  | some m => (.ok (some m), { r with position := r.position + 1 })
  | none => (.ok none, r)

theorem nextMatch_remaining_le (r : VectorRanker) : r.nextMatch.2.remaining ≤ r.remaining := by
  unfold nextMatch remaining
  split
  · exact Nat.sub_le_sub_left (Nat.le_succ _) _
  · exact Nat.le_refl _

theorem nextMatch_remaining_lt {r r' : VectorRanker} {m : Match}
    (h : r.nextMatch = (.ok (some m), r')) : r'.remaining < r.remaining := by
  unfold nextMatch at h
  split at h
  · rename_i hm
    obtain ⟨hlt, -⟩ := Array.getElem?_eq_some_iff.1 hm
    cases h
    exact Nat.sub_lt_sub_left hlt (Nat.lt_succ_self _)
  · cases h

instance : Ranker VectorRanker where
  nextMatch := nextMatch
  nextBlock := Ranker.fill nextMatch blockCapacity

instance : Ranker.Bounded VectorRanker where
  left := remaining
  left_lt_of_block := Ranker.fill_left_lt nextMatch_remaining_le nextMatch_remaining_lt

end VectorRanker

/-! ## In a box -/

/-- A ranker of whatever kind, as long as it comes to an end. -/
structure BoxedRanker : Type 1 where
  {σ : Type}
  [ranker : Ranker σ]
  [bounded : Ranker.Bounded σ]
  content : σ

namespace BoxedRanker

def nextMatch : BoxedRanker → Except CacheError (Option Match) × BoxedRanker
  | @mk _ _ _ s => let (r, s) := Ranker.nextMatch s; (r, ⟨s⟩)

def nextBlock : BoxedRanker → Array Match → Except CacheError Nat × Array Match × BoxedRanker
  | @mk _ _ _ s, out => let (r, out, s) := Ranker.nextBlock s out; (r, out, ⟨s⟩)

instance : Ranker BoxedRanker where
  nextMatch := nextMatch
  nextBlock := nextBlock

instance : Ranker.Bounded BoxedRanker where
  left | @mk _ _ _ s => Ranker.Bounded.left s
  left_lt_of_block := by
    rintro ⟨s⟩ b out out' n h
    rcases hb : Ranker.nextBlock s out with ⟨r, out₁, s'⟩
    have hboxed : nextBlock ⟨s⟩ out = (r, out₁, ⟨s'⟩) := by
      rw [nextBlock, hb]
    obtain ⟨rfl, rfl, rfl⟩ : r = .ok (n + 1) ∧ out₁ = out' ∧ (⟨s'⟩ : BoxedRanker) = b := by
      simpa using hboxed.symm.trans h
    exact Ranker.Bounded.left_lt_of_block hb

end BoxedRanker

end ResultCache
