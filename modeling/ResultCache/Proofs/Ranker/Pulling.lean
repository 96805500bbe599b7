/-
What pulls do, whatever the ranker. `Ranker.taken` is what a pull takes out of a ranker, also where
a failure keeps it from the consumer; a lawful ranker shows what is taken and leaves the matches
that were on a list before alone. Asking for all that is left is pulling blocks until one delivers
nothing; only that needs a ranker that comes to an end.
-/
import ResultCache.Ranker.Live
import ResultCache.Ranker.Simple

namespace ResultCache

universe u

/-! ## Replies -/

/-- What a reply says about matches still to come. -/
inductive Signal where
  | more
  | ended
  | failed (e : CacheError)
  deriving DecidableEq, Repr

namespace Reply

/-- An empty block is the end, and so is having got all there is. -/
def signal : Reply → Signal
  | .one (.ok (some _)) => .more
  | .one (.ok none) => .ended
  | .one (.error e) => .failed e
  | .block (.ok (_ + 1)) _ => .more
  | .block (.ok 0) _ => .ended
  | .block (.error e) _ => .failed e
  | .all (.ok _) => .ended
  | .all (.error e) => .failed e

/-- The reply to a pull shows the consumer that these matches were taken. All of them are shown but
for those that were to be collected when the ranker failed. -/
def Shows : Pull → List Match → Reply → Prop
  | .one, ms, .one (.ok (some m)) => ms = [m]
  | .one, ms, .one _ => ms = []
  | .block held, ms, .block r out => out = held ++ ms ∧ ∀ n, r = .ok n → n = ms.length
  | .all, ms, .all (.ok out) => out.toList = ms
  | .all, _, .all (.error _) => True
  | _, _, _ => False

end Reply

/-! ## Laws -/

/-- A ranker whose blocks go behind what a list already holds and are as long as it tells. -/
class LawfulRanker (σ : Type u) [Ranker σ] : Prop where
  block_append : ∀ {s s' : σ} {out out' : Array Match} {r : Except CacheError Nat},
    Ranker.nextBlock s out = (r, out', s') →
    ∃ ms : List Match, out' = out ++ ms ∧ ∀ n, r = .ok n → ms.length = n

namespace Ranker

variable {σ : Type u}

/-- What is filled from single pulls goes behind the list, a match for every pull that gave one. -/
theorem fill_append {next : σ → Except CacheError (Option Match) × σ} :
    ∀ {room : Nat} {s s' : σ} {out out' : Array Match} {r : Except CacheError Nat},
    fill next room s out = (r, out', s') →
    ∃ ms : List Match, out' = out ++ ms ∧ ∀ n, r = .ok n → ms.length = n
  | 0, s, s', out, out', r, h => by
    cases h
    exact ⟨[], by simp, fun n hn => by cases hn; rfl⟩
  | room + 1, s, s', out, out', r, h => by
    rw [fill] at h
    rcases hn : next s with ⟨e | _ | m, t⟩
    · rw [hn] at h
      cases h
      exact ⟨[], by simp, fun n hn => by cases hn⟩
    · rw [hn] at h
      cases h
      exact ⟨[], by simp, fun n hn => by cases hn; rfl⟩
    · rw [hn] at h
      dsimp only at h
      rcases hf : fill next room t (out.push m) with ⟨r₁, out₁, t₁⟩
      obtain ⟨ms, rfl, hlen⟩ := fill_append hf
      have hout : out.push m ++ ms = out ++ m :: ms := by simp
      rw [hf, hout] at h
      cases r₁ with
      | error e =>
        cases h
        exact ⟨m :: ms, rfl, fun n hn => by cases hn⟩
      | ok k =>
        cases h
        exact ⟨m :: ms, rfl, fun n hn => by cases hn; rw [List.length_cons, hlen k rfl]⟩

variable [Ranker σ] {s s' : σ}

/-! ## Single pulls and blocks -/

theorem step_one {r : Except CacheError (Option Match)} (h : nextMatch s = (r, s')) :
    step .one s = (.one r, s') := by
  rw [step, h]

theorem step_block {held out : Array Match} {r : Except CacheError Nat}
    (h : nextBlock s held = (r, out, s')) : step (.block held) s = (.block r out, s') := by
  rw [step, h]

/-- The matches that a single pull or a block takes out of a ranker. -/
def stepTaken : Step → σ → List Match
  | .one, s => (nextMatch s).1.toOption.join.toList
  | .block held, s => (nextBlock s held).2.1.toList.drop held.size

theorem stepTaken_one {r : Except CacheError (Option Match)} (h : nextMatch s = (r, s')) :
    stepTaken .one s = r.toOption.join.toList := by
  rw [stepTaken, h]

theorem stepTaken_block {held : Array Match} {ms : List Match} {r : Except CacheError Nat}
    (h : nextBlock s held = (r, held ++ ms, s')) : stepTaken (.block held) s = ms := by
  rw [stepTaken, h]
  simp

theorem step_shows [LawfulRanker σ] (p : Step) (s : σ) :
    (step p s).1.Shows (.step p) (stepTaken p s) := by
  cases p with
  | one =>
    rcases hn : nextMatch s with ⟨_ | _ | m, s'⟩ <;> rw [stepTaken_one hn, step_one hn] <;> rfl
  | block held =>
    rcases hb : nextBlock s held with ⟨r, out', s'⟩
    obtain ⟨ms, rfl, hlen⟩ := LawfulRanker.block_append hb
    rw [stepTaken_block hb, step_block hb]
    exact ⟨rfl, fun n hn => (hlen n hn).symm⟩

/-! ## All that is left -/

variable [Bounded σ]

section

variable {out out' : Array Match}

theorem drain_error {e : CacheError} (h : nextBlock s out = (.error e, out', s')) :
    drain s out = (.error e, out', s') := by
  rw [drain]
  split <;> simp_all

theorem drain_end (h : nextBlock s out = (.ok 0, out', s')) : drain s out = (.ok (), out', s') := by
  rw [drain]
  split <;> simp_all

theorem drain_block {n : Nat} (h : nextBlock s out = (.ok (n + 1), out', s')) :
    drain s out = drain s' out' := by
  rw [drain]
  split <;> simp_all

theorem pull_all_ok (h : drain s #[] = (.ok (), out, s')) : pull .all s = (.all (.ok out), s') := by
  rw [pull, collect, h]

theorem pull_all_error {e : CacheError} (h : drain s #[] = (.error e, out, s')) :
    pull .all s = (.all (.error e), s') := by
  rw [pull, collect, h]

end

/-! ## Pulls of any kind -/

theorem pull_one {r : Except CacheError (Option Match)} (h : nextMatch s = (r, s')) :
    pull .one s = (.one r, s') :=
  step_one h

theorem pull_block {held out : Array Match} {r : Except CacheError Nat}
    (h : nextBlock s held = (r, out, s')) : pull (.block held) s = (.block r out, s') :=
  step_block h

/-- The matches that a pull takes out of a ranker. -/
def taken : Pull → σ → List Match
  | .step p, s => stepTaken p s
  | .all, s => (drain s #[]).2.1.toList

/-- The ranker after some pulls. -/
def pullAll (ps : List Pull) (s : σ) : σ := ps.foldl (fun s p => (pull p s).2) s

/-- The matches taken by some pulls, in order. -/
def takenAll : List Pull → σ → List Match
  | [], _ => []
  | p :: ps, s => taken p s ++ takenAll ps (pull p s).2

theorem taken_one {r : Except CacheError (Option Match)} (h : nextMatch s = (r, s')) :
    taken .one s = r.toOption.join.toList :=
  stepTaken_one h

theorem taken_block {held : Array Match} {ms : List Match} {r : Except CacheError Nat}
    (h : nextBlock s held = (r, held ++ ms, s')) : taken (.block held) s = ms :=
  stepTaken_block h

/-- What is taken is what the consumer sees. -/
theorem pull_shows [LawfulRanker σ] (p : Pull) (s : σ) : (pull p s).1.Shows p (taken p s) := by
  cases p using Pull.rec with
  | step p => exact step_shows p s
  | all =>
    rcases hd : drain s #[] with ⟨_ | _, out, s'⟩ <;> simp [pull, collect, taken, hd, Reply.Shows]

end Ranker

/-! ## Rankers at hand -/

instance : LawfulRanker Live where
  block_append := Ranker.fill_append

instance : LawfulRanker EmptyRanker where
  block_append := Ranker.fill_append

instance : LawfulRanker VectorRanker where
  block_append := Ranker.fill_append

end ResultCache
