/-
A recorder seen from its consumer. Whatever the ranker does, behind an end and behind a failure
included, and whatever becomes of the record, the consumer of a recorder gets the replies that the
bare ranker would give: the recorder and the bare ranker are moved side by side, with the recorded
ranker always in the state of the bare one.
-/
import ResultCache.Proofs.Ranker.Offering

namespace ResultCache

universe u

namespace Recording

variable {σ : Type u} [Ranker σ] {s' : σ}

/-! ## Side by side -/

theorem nextMatch_forwards (r : Recording σ) {res : Except CacheError (Option Match)}
    (h : Ranker.nextMatch r.recorder.inner = (res, s')) :
    ∃ r', Ranker.nextMatch r = (res, r') ∧ r'.recorder.inner = s' := by
  have hr : Ranker.nextMatch r = r.nextMatch := rfl
  rw [hr, nextMatch, h]
  rcases res with e | _ | m
  · exact ⟨_, rfl, rfl⟩
  · exact ⟨_, rfl, complete_inner _⟩
  · exact ⟨_, rfl, rfl⟩

theorem nextBlock_forwards (r : Recording σ) (out : Array Match) {out' : Array Match}
    {res : Except CacheError Nat}
    (h : Ranker.nextBlock r.recorder.inner out = (res, out', s')) :
    ∃ r', Ranker.nextBlock r out = (res, out', r') ∧ r'.recorder.inner = s' := by
  have hr : Ranker.nextBlock r out = r.nextBlock out := rfl
  rw [hr, nextBlock, h]
  rcases res with e | _ | n
  · exact ⟨_, rfl, rfl⟩
  · exact ⟨_, rfl, complete_inner _⟩
  · exact ⟨_, rfl, rfl⟩

/-- A single pull or a block of a recording is that of its ranker. -/
theorem step_forwards (p : Step) (r : Recording σ) :
    (Ranker.step p r).1 = (Ranker.step p r.recorder.inner).1 ∧
      (Ranker.step p r).2.recorder.inner = (Ranker.step p r.recorder.inner).2 := by
  cases p with
  | one =>
    obtain ⟨r', hr, hinner⟩ := nextMatch_forwards r rfl
    rw [Ranker.step_one hr]
    exact ⟨rfl, hinner⟩
  | block held =>
    obtain ⟨r', hr, hinner⟩ := nextBlock_forwards r held rfl
    rw [Ranker.step_block hr]
    exact ⟨rfl, hinner⟩

variable [Ranker.Bounded σ]

/-- Draining goes block by block on both sides, so they stop at the same block. -/
theorem drain_forwards (s : σ) (out : Array Match) : ∀ r : Recording σ, r.recorder.inner = s →
    ∃ r', Ranker.drain r out = ((Ranker.drain s out).1, (Ranker.drain s out).2.1, r') ∧
      r'.recorder.inner = (Ranker.drain s out).2.2 := by
  fun_induction Ranker.drain s out with
  | case1 s out e out' s' h =>
    rintro r rfl
    obtain ⟨r', hr, hinner⟩ := nextBlock_forwards r out h
    exact ⟨r', Ranker.drain_error hr, hinner⟩
  | case2 s out out' s' h =>
    rintro r rfl
    obtain ⟨r', hr, hinner⟩ := nextBlock_forwards r out h
    exact ⟨r', Ranker.drain_end hr, hinner⟩
  | case3 s out n out' s' h ih =>
    rintro r rfl
    obtain ⟨r', hr, hinner⟩ := nextBlock_forwards r out h
    rw [Ranker.drain_block hr]
    exact ih r' hinner

/-- A pull on a recording is the pull on its ranker. -/
theorem pull_forwards (p : Pull) (r : Recording σ) :
    (Ranker.pull p r).1 = (Ranker.pull p r.recorder.inner).1 ∧
      (Ranker.pull p r).2.recorder.inner = (Ranker.pull p r.recorder.inner).2 := by
  cases p using Pull.rec with
  | step p => exact step_forwards p r
  | all =>
    obtain ⟨r', hr, hinner⟩ := drain_forwards r.recorder.inner #[] r rfl
    simp only [Ranker.pull, Ranker.collect]
    rw [hr]
    -- collecting drops the list only where draining failed
    rcases hd : Ranker.drain r.recorder.inner #[] with ⟨_ | _, out, s'⟩ <;> rw [hd] at hinner <;>
      exact ⟨rfl, hinner⟩

end Recording

/-! ## Runs of pulls -/

namespace Ranker

variable {σ : Type u} [Ranker σ] [Bounded σ]

/-- What some pulls are told, in order. -/
def replies : List Pull → σ → List Reply
  | [], _ => []
  | p :: ps, s => (pull p s).1 :: replies ps (pull p s).2

end Ranker

namespace Recorder

variable {σ : Type u} [Ranker σ] [Ranker.Bounded σ]

/-- What some visits are told, in order. -/
def replies (hash : Hasher) : List Visit → Recorder σ → List Reply
  | [], _ => []
  | v :: vs, r => (r.visit hash v).1 :: replies hash vs (r.visit hash v).2.1

theorem visit_forwards (hash : Hasher) (v : Visit) (r : Recorder σ) :
    (r.visit hash v).1 = (Ranker.pull v.pull r.inner).1 ∧
      (r.visit hash v).2.1.inner = (Ranker.pull v.pull r.inner).2 :=
  Recording.pull_forwards v.pull { recorder := r, cache := v.cache, hash, now := v.now : Recording σ }

/-- The consumer of a recorder gets, pull by pull, the replies of the bare ranker: the same results,
errors and counts, and the same matches on its lists, those that a failing block left there too.
The ranker need not obey any law, the record may still be kept, be offered already or be given up,
and on every visit the cache may be another one. -/
theorem replies_eq (hash : Hasher) (vs : List Visit) (r : Recorder σ) :
    r.replies hash vs = Ranker.replies (vs.map Visit.pull) r.inner ∧
      (r.after hash vs).inner = Ranker.pullAll (vs.map Visit.pull) r.inner := by
  induction vs generalizing r with
  | nil => exact ⟨rfl, rfl⟩
  | cons v vs ih =>
    obtain ⟨hreply, hinner⟩ := visit_forwards hash v r
    obtain ⟨hreplies, hafter⟩ := ih (r.visit hash v).2.1
    rw [hinner] at hreplies hafter
    constructor
    · rw [replies, List.map_cons, Ranker.replies, hreply, hreplies]
    · exact hafter

end Recorder

end ResultCache
