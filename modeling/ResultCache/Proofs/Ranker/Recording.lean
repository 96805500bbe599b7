/-
Recording a ranker. A pull on a recorder is the same pull on its ranker, and what it does to the
record follows from the reply alone (`Recording.pull_eq`): matches are noted, a failure gives the
record up, the end completes it.
-/
import ResultCache.Proofs.Ranker.Pulling
import ResultCache.Proofs.Stream.Packing
import ResultCache.Ranker.Recorder

namespace ResultCache

universe u

/-! ## Drafts -/

namespace Draft

theorem pushAll_append (ms ms' : List Match) (d : Draft) :
    d.pushAll (ms ++ ms') = (d.pushAll ms).pushAll ms' :=
  List.foldl_append

theorem pushAll_index (ms : List Match) : ∀ d : Draft, (d.pushAll ms).index = d.index := by
  induction ms with
  | nil => exact fun _ => rfl
  | cons m ms ih => exact fun d => ih (d.push m)

theorem pushAll_writer (ms : List Match) :
    ∀ d : Draft, (d.pushAll ms).writer = d.writer.performAll (ms.map .append) := by
  induction ms with
  | nil => exact fun _ => rfl
  | cons m ms ih => exact fun d => ih (d.push m)

/-- An entry holds the matches recorded, in order. -/
theorem finish_unpack (index : Int64) (ms : List Match) (now : Instant) (elapsed : Nat) :
    (((Draft.start index).pushAll ms).finish now elapsed).unpack = .ok ms.toArray := by
  have happended : ∀ ms : List Match, Writer.appended (ms.map .append) = ms := by
    intro ms
    induction ms with
    | nil => rfl
    | cons m ms ih => exact congrArg (m :: ·) ih
  obtain ⟨frames, h⟩ := Writer.Packs.performAll (ms.map .append) Writer.empty_packs (by decide)
  rw [List.nil_append, happended] at h
  show (((Draft.start index).pushAll ms).writer.finish).unpack = _
  rw [pushAll_writer]
  exact Stream.unpack_eq_ok_iff.2 h.carries

end Draft

/-! ## Pulls -/

namespace Recording

variable {σ : Type u}

/-- How a recording goes on once its ranker has handed out `ms` and given this signal. -/
def follow (signal : Signal) (ms : List Match) (inner : σ) (r : Recording σ) : Recording σ :=
  match signal with
  | .more => (r.withInner inner).note ms
  | .ended => ((r.withInner inner).note ms).complete
  | .failed _ => (r.withInner inner).abandon

theorem note_nil (r : Recording σ) : r.note [] = r := by
  obtain ⟨⟨inner, draft, query, schema, startedAt, stored⟩, cache, hash, now⟩ := r
  cases draft <;> rfl

theorem note_note (ms ms' : List Match) (r : Recording σ) :
    (r.note ms).note ms' = r.note (ms ++ ms') := by
  obtain ⟨⟨inner, draft, query, schema, startedAt, stored⟩, cache, hash, now⟩ := r
  cases draft with
  | none => rfl
  | some d => simp [note, Draft.pushAll_append]

/-- Noting what came first and following the rest is following all of it. -/
theorem follow_note (signal : Signal) (ms ms' : List Match) (inner inner' : σ) (r : Recording σ) :
    ((r.withInner inner).note ms).follow signal ms' inner' = r.follow signal (ms ++ ms') inner' := by
  have hnote : (((r.withInner inner).note ms).withInner inner').note ms' =
      (r.withInner inner').note (ms ++ ms') := note_note ms ms' (r.withInner inner')
  cases signal with
  | more => exact hnote
  | ended => exact congrArg complete hnote
  | failed e => rfl

variable [Ranker σ]

theorem nextMatch_eq {r : Recording σ} {res : Except CacheError (Option Match)} {inner : σ}
    (h : Ranker.nextMatch r.recorder.inner = (res, inner)) :
    Ranker.nextMatch r =
      (res, r.follow (Reply.one res).signal (Ranker.stepTaken .one r.recorder.inner) inner) := by
  have htaken := Ranker.stepTaken_one h
  show r.nextMatch = _
  unfold nextMatch
  rw [h, htaken]
  rcases res with e | _ | m
  · rfl
  · exact congrArg (fun r => (_, complete r)) (note_nil (r.withInner inner)).symm
  · rfl

variable [LawfulRanker σ]

theorem nextBlock_eq {r : Recording σ} {out : Array Match} {res : Except CacheError Nat}
    {ms : List Match} {inner : σ}
    (h : Ranker.nextBlock r.recorder.inner out = (res, out ++ ms, inner)) :
    Ranker.nextBlock r out =
      (res, out ++ ms, r.follow (Reply.block res (out ++ ms)).signal ms inner) := by
  obtain ⟨ms', hms', hlen⟩ := LawfulRanker.block_append h
  have hnoted : ((out ++ ms).extract out.size (out ++ ms).size).toList = ms := by
    simp [← Array.length_toList]
  have hsame : ms' = ms := by
    have := congrArg Array.toList hms'
    simpa using this.symm
  subst hsame
  show r.nextBlock out = _
  unfold nextBlock
  rw [h]
  rcases res with e | _ | n
  · rfl
  · -- an empty block adds nothing to the record
    have hempty : ms' = [] := List.length_eq_zero_iff.1 (hlen 0 rfl)
    subst hempty
    exact congrArg (fun r => (_, _, complete r)) (note_nil (r.withInner inner)).symm
  · exact congrArg (fun ms => (_, _, (r.withInner inner).note ms)) hnoted

/-- The ranker answers a single pull or a block, and the record follows. -/
theorem step_eq (p : Step) (r : Recording σ) :
    Ranker.step p r = ((Ranker.step p r.recorder.inner).1,
      r.follow (Ranker.step p r.recorder.inner).1.signal (Ranker.stepTaken p r.recorder.inner)
        (Ranker.step p r.recorder.inner).2) ∧
    Ranker.stepTaken p r = Ranker.stepTaken p r.recorder.inner := by
  cases p with
  | one =>
    rcases hn : Ranker.nextMatch r.recorder.inner with ⟨res, inner⟩
    have h := nextMatch_eq hn
    constructor
    · rw [Ranker.step_one h, Ranker.step_one hn]
    · rw [Ranker.stepTaken_one h, Ranker.stepTaken_one hn]
  | block held =>
    rcases hb : Ranker.nextBlock r.recorder.inner held with ⟨res, out', inner⟩
    obtain ⟨ms, rfl, -⟩ := LawfulRanker.block_append hb
    have h := nextBlock_eq hb
    constructor
    · rw [Ranker.step_block h, Ranker.step_block hb, Ranker.stepTaken_block hb]
    · rw [Ranker.stepTaken_block h, Ranker.stepTaken_block hb]

variable [Ranker.Bounded σ]

/-- What collecting says of a ranker. -/
def drained (res : Except CacheError Unit) : Signal :=
  match res with
  | .ok () => .ended
  | .error e => .failed e

theorem drain_eq (s : σ) (out : Array Match) : ∀ r : Recording σ, r.recorder.inner = s →
    ∃ ms : List Match, (Ranker.drain s out).2.1 = out ++ ms ∧
      Ranker.drain r out = ((Ranker.drain s out).1, (Ranker.drain s out).2.1,
        r.follow (drained (Ranker.drain s out).1) ms (Ranker.drain s out).2.2) := by
  fun_induction Ranker.drain s out with
  | case1 s out e out' s' h =>
    rintro r rfl
    obtain ⟨ms, rfl, -⟩ := LawfulRanker.block_append h
    exact ⟨ms, rfl, Ranker.drain_error (nextBlock_eq h)⟩
  | case2 s out out' s' h =>
    rintro r rfl
    obtain ⟨ms, rfl, -⟩ := LawfulRanker.block_append h
    exact ⟨ms, rfl, Ranker.drain_end (nextBlock_eq h)⟩
  | case3 s out n out' s' h ih =>
    rintro r rfl
    obtain ⟨ms, rfl, -⟩ := LawfulRanker.block_append h
    obtain ⟨rest, hrest, hdrain⟩ := ih ((r.withInner s').note ms) rfl
    refine ⟨ms ++ rest, by rw [hrest]; exact Array.toList_inj.1 (by simp), ?_⟩
    rw [Ranker.drain_block (nextBlock_eq h)]
    exact hdrain.trans (by rw [follow_note])

/-- The ranker answers, and the record follows. -/
theorem pull_eq (p : Pull) (r : Recording σ) :
    Ranker.pull p r = ((Ranker.pull p r.recorder.inner).1,
      r.follow (Ranker.pull p r.recorder.inner).1.signal (Ranker.taken p r.recorder.inner)
        (Ranker.pull p r.recorder.inner).2) ∧
    Ranker.taken p r = Ranker.taken p r.recorder.inner := by
  cases p using Pull.rec with
  | step p => exact step_eq p r
  | all =>
    obtain ⟨ms, hms, h⟩ := drain_eq r.recorder.inner #[] r rfl
    have htaken : Ranker.taken .all r.recorder.inner = ms := by
      rw [Ranker.taken, hms]
      simp
    constructor
    · rw [htaken]
      simp only [Ranker.pull, Ranker.collect]
      rw [h]
      rcases Ranker.drain r.recorder.inner #[] with ⟨_ | _, out, inner⟩ <;> rfl
    · rw [Ranker.taken, Ranker.taken, h]

end Recording

end ResultCache
