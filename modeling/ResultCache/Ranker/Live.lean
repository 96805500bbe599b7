/-
Live rankers, described by what they report: first one event after another, then their ending for
good. They answer single pulls; blocks are filled from those.
-/
import ResultCache.Ranker.Basic

namespace ResultCache

/-- One report of a live ranker. -/
inductive Event where
  | yield (m : Match)
  /-- Reports its end once and goes on when asked again. -/
  | pause
  /-- Fails once. -/
  | fail (e : CacheError)
  deriving DecidableEq, Repr

/-- What a live ranker reports once its events are used up. -/
inductive Ending where
  | exhausted
  | failing (e : CacheError)
  deriving DecidableEq, Repr

/-- A live ranker, by what it will report. -/
structure Live where
  events : List Event := []
  ending : Ending := .exhausted
  deriving DecidableEq, Repr, Inhabited

namespace Live

/-- The next report. -/
def nextMatch (l : Live) : Except CacheError (Option Match) × Live :=
  match l.events with
  | .yield m :: rest => (.ok (some m), { l with events := rest })
  | .pause :: rest => (.ok none, { l with events := rest })
  | .fail e :: rest => (.error e, { l with events := rest })
  | [] =>
    match l.ending with
    | .exhausted => (.ok none, l)
    | .failing e => (.error e, l)

theorem nextMatch_events_le (l : Live) : l.nextMatch.2.events.length ≤ l.events.length := by
  unfold nextMatch
  rcases he : l.events with _ | ⟨event, rest⟩
  · dsimp only
    cases l.ending <;> exact Nat.le_of_eq (congrArg List.length he)
  · cases event <;> exact Nat.le_succ _

theorem nextMatch_events_lt {l l' : Live} {m : Match} (h : l.nextMatch = (.ok (some m), l')) :
    l'.events.length < l.events.length := by
  unfold nextMatch at h
  rcases he : l.events with _ | ⟨event, rest⟩
  · rw [he] at h
    dsimp only at h
    cases hend : l.ending <;> rw [hend] at h <;> cases h
  · rw [he] at h
    cases event with
    | yield m' => cases h; exact Nat.lt_succ_self _
    | pause => cases h
    | fail e => cases h

instance : Ranker Live where
  nextMatch := nextMatch
  nextBlock := Ranker.fill nextMatch blockCapacity

instance : Ranker.Bounded Live where
  left l := l.events.length
  left_lt_of_block := Ranker.fill_left_lt nextMatch_events_le nextMatch_events_lt

end Live

end ResultCache
