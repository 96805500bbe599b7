/-
Rankers that only know single pulls. Such a ranker fills its blocks from single pulls, so it is told
by what these come to, one after another (`Ranker.outcomes`), and every single pull and every block
spends the next few of them: a single pull spends one, a block the matches it appends and, where it
stops before it is full, the end or the failure that stopped it. Nothing is spent twice and nothing
is left out; that needs no end of the ranker. Where the outcomes are matches and then ends for good
(`Ranker.Lists`), pulls of any kind hand out the same matches.
-/
import ResultCache.Proofs.Ranker.Forwarding
import ResultCache.Proofs.Ranker.Listing

namespace ResultCache

universe u

/-! ## Outcomes -/

/-- What a single pull comes to: a match, an end, or a failure. -/
abbrev Outcome := Except CacheError (Option Match)

/-- The match that came, if one did. -/
def Outcome.match? (o : Outcome) : Option Match := o.toOption.join

/-- The outcomes of getting these matches. -/
def gotten (ms : List Match) : List Outcome := ms.map fun m => .ok (some m)

theorem match?_gotten (ms : List Match) : (gotten ms).filterMap Outcome.match? = ms := by
  induction ms with
  | nil => rfl
  | cons m ms ih => exact congrArg (m :: ·) ih

/-- A ranker that fills its blocks from single pulls. -/
class PlainRanker (σ : Type u) [Ranker σ] : Prop where
  nextBlock_eq : ∀ (s : σ) (out : Array Match),
    Ranker.nextBlock s out = Ranker.fill Ranker.nextMatch blockCapacity s out

instance : PlainRanker Live where
  nextBlock_eq _ _ := rfl

instance : PlainRanker EmptyRanker where
  nextBlock_eq _ _ := rfl

instance : PlainRanker VectorRanker where
  nextBlock_eq _ _ := rfl

namespace Ranker

variable {σ : Type u} [Ranker σ]

/-- What the next `n` single pulls come to. -/
def outcomes : Nat → σ → List Outcome
  | 0, _ => []
  | n + 1, s => (nextMatch s).1 :: outcomes n (nextMatch s).2

/-- The ranker after `n` single pulls. -/
def skip : Nat → σ → σ
  | 0, s => s
  | n + 1, s => skip n (nextMatch s).2

theorem outcomes_add (n k : Nat) : ∀ s : σ,
    outcomes (n + k) s = outcomes n s ++ outcomes k (skip n s) := by
  induction n with
  | zero => exact fun _ => by rw [Nat.zero_add]; rfl
  | succ n ih =>
    intro s
    rw [Nat.add_right_comm, outcomes, ih]
    rfl

theorem skip_add (n k : Nat) : ∀ s : σ, skip (n + k) s = skip k (skip n s) := by
  induction n with
  | zero => exact fun _ => by rw [Nat.zero_add]; rfl
  | succ n ih =>
    intro s
    rw [Nat.add_right_comm, skip, ih]
    rfl

/-! ## What a pull spends -/

/-- A block with room for so many matches gets `ms` and comes to a result: it is full, or an end
stops it, or a failure does, and that is spent as well. -/
inductive Fills (room : Nat) (ms : List Match) : List Outcome → Except CacheError Nat → Prop where
  | full : ms.length = room → Fills room ms (gotten ms) (.ok room)
  | ended : ms.length < room → Fills room ms (gotten ms ++ [.ok none]) (.ok ms.length)
  | failed (e : CacheError) : ms.length < room → Fills room ms (gotten ms ++ [.error e]) (.error e)

/-- The outcomes that a single pull or a block spends, and what it replies. -/
inductive Spends : Step → List Outcome → Reply → Prop where
  | one (o : Outcome) : Spends .one [o] (.one o)
  | block {ms : List Match} {os : List Outcome} {r : Except CacheError Nat} (held : Array Match) :
      Fills blockCapacity ms os r → Spends (.block held) os (.block r (held ++ ms))

theorem Fills.cons {room : Nat} {m : Match} {ms : List Match} {os : List Outcome}
    {r : Except CacheError Nat} (h : Fills room ms os r) :
    Fills (room + 1) (m :: ms) (.ok (some m) :: os) (r.map (· + 1)) := by
  cases h with
  | full hlen => exact .full (congrArg (· + 1) hlen)
  | ended hlt => exact .ended (Nat.succ_lt_succ hlt)
  | failed e hlt => exact .failed e (Nat.succ_lt_succ hlt)

theorem Fills.matches {room : Nat} {ms : List Match} {os : List Outcome}
    {r : Except CacheError Nat} (h : Fills room ms os r) : os.filterMap Outcome.match? = ms := by
  cases h with
  | full hlen => exact match?_gotten ms
  | ended hlt => rw [List.filterMap_append, match?_gotten]; exact List.append_nil ms
  | failed e hlt => rw [List.filterMap_append, match?_gotten]; exact List.append_nil ms

theorem fill_fills : ∀ (room : Nat) (s : σ) (out : Array Match),
    ∃ n ms, Fills room ms (outcomes n s) (fill nextMatch room s out).1 ∧
      (fill nextMatch room s out).2 = (out ++ ms, skip n s)
  | 0, s, out => ⟨0, [], .full rfl, by simp [fill, skip]⟩
  | room + 1, s, out => by
    rw [fill]
    rcases hn : nextMatch s with ⟨e | _ | m, s'⟩
    · refine ⟨1, [], ?_, ?_⟩
      · rw [outcomes, hn]
        exact .failed e (Nat.succ_pos room)
      · simp [skip, hn]
    · refine ⟨1, [], ?_, ?_⟩
      · rw [outcomes, hn]
        exact .ended (Nat.succ_pos room)
      · simp [skip, hn]
    · obtain ⟨n, ms, hfills, hrest⟩ := fill_fills room s' (out.push m)
      refine ⟨n + 1, m :: ms, ?_, ?_⟩
      · rw [outcomes, hn]
        dsimp only
        have hcons := hfills.cons (m := m)
        rcases hf : fill nextMatch room s' (out.push m) with ⟨e | k, out', s''⟩ <;>
          rw [hf] at hcons <;> exact hcons
      · rw [skip, hn]
        dsimp only
        have hout : out.push m ++ ms = out ++ m :: ms := by simp
        rw [hout] at hrest
        rcases hf : fill nextMatch room s' (out.push m) with ⟨e | k, out', s''⟩ <;>
          rw [hf] at hrest <;> exact hrest

/-! ## Runs of single pulls and blocks -/

/-- The ranker after some single pulls and blocks. -/
def stepAll (ps : List Step) (s : σ) : σ := ps.foldl (fun s p => (step p s).2) s

/-- What some single pulls and blocks are told, in order. -/
def stepReplies : List Step → σ → List Reply
  | [], _ => []
  | p :: ps, s => (step p s).1 :: stepReplies ps (step p s).2

/-- The matches taken by some single pulls and blocks, in order. -/
def stepTakenAll : List Step → σ → List Match
  | [], _ => []
  | p :: ps, s => stepTaken p s ++ stepTakenAll ps (step p s).2

section

variable [PlainRanker σ]

/-- A single pull or a block spends the next outcomes, gives out the matches among them, and leaves
the others. -/
theorem step_spends (p : Step) (s : σ) :
    ∃ n, Spends p (outcomes n s) (step p s).1 ∧ (step p s).2 = skip n s ∧
      stepTaken p s = (outcomes n s).filterMap Outcome.match? := by
  cases p with
  | one =>
    refine ⟨1, .one _, rfl, ?_⟩
    rw [stepTaken, outcomes, outcomes, List.filterMap_cons]
    rcases (nextMatch s).1 with e | _ | m <;> rfl
  | block held =>
    obtain ⟨n, ms, hfills, hrest⟩ := fill_fills blockCapacity s held
    rw [← PlainRanker.nextBlock_eq] at hfills hrest
    have hblock : nextBlock s held = ((nextBlock s held).1, held ++ ms, skip n s) :=
      Prod.ext rfl hrest
    rw [step_block hblock, stepTaken_block hblock]
    exact ⟨n, .block held hfills, rfl, hfills.matches.symm⟩

/-- Single pulls and blocks spend the outcomes one share after another. -/
theorem steps_spend (ps : List Step) : ∀ s : σ,
    ∃ shares : List (List Outcome × Reply), shares.map Prod.snd = stepReplies ps s ∧
      List.Forall₂ (fun p share => Spends p share.1 share.2) ps shares ∧
      ∃ n, shares.flatMap Prod.fst = outcomes n s ∧ stepAll ps s = skip n s ∧
        stepTakenAll ps s = (outcomes n s).filterMap Outcome.match? := by
  induction ps with
  | nil => exact fun s => ⟨[], rfl, .nil, 0, rfl, rfl, rfl⟩
  | cons p ps ih =>
    intro s
    obtain ⟨n, hspends, hskip, htaken⟩ := step_spends p s
    obtain ⟨shares, hreplies, hshares, k, hflat, hafter, hrest⟩ := ih (step p s).2
    refine ⟨(outcomes n s, (step p s).1) :: shares, ?_, .cons hspends hshares, n + k, ?_, ?_, ?_⟩
    · rw [List.map_cons, hreplies, stepReplies]
    · rw [List.flatMap_cons, hflat, hskip, outcomes_add]
    · rw [skip_add, ← hskip]
      exact hafter
    · rw [stepTakenAll, htaken, hrest, hskip, outcomes_add, List.filterMap_append]

end

/-! ## Scripts -/

/-- Single pulls come to the outcomes of a script, and behind it to the same one for good. -/
def Performs (script : List Outcome) (last : Outcome) (s : σ) : Prop :=
  ∀ n, outcomes n s = script.take n ++ List.replicate (n - script.length) last

/-- Single pulls come to these matches and then to an end for good. -/
def Lists (ms : List Match) (s : σ) : Prop := Performs (gotten ms) (.ok none) s

namespace Performs

variable {script : List Outcome} {o last : Outcome} {s : σ}

theorem nextMatch_nil (h : Performs [] last s) :
    ∃ s', nextMatch s = (last, s') ∧ Performs [] last s' := by
  refine ⟨(nextMatch s).2, Prod.ext ?_ rfl, fun n => ?_⟩
  · exact (List.cons.inj (h 1)).1
  · refine (List.cons.inj (h (n + 1))).2.trans ?_
    rw [List.take_nil]
    rfl

theorem nextMatch_cons (h : Performs (o :: script) last s) :
    ∃ s', nextMatch s = (o, s') ∧ Performs script last s' := by
  refine ⟨(nextMatch s).2, Prod.ext ?_ rfl, fun n => ?_⟩
  · exact (List.cons.inj (h 1)).1
  · have htail := (List.cons.inj (h (n + 1))).2
    rwa [List.length_cons, Nat.add_sub_add_right] at htail

/-- The script is performed if its first outcome is, and the rest of it behind that. -/
theorem cons {s' : σ} (hnext : nextMatch s = (o, s')) (h : Performs script last s') :
    Performs (o :: script) last s := by
  intro n
  cases n with
  | zero => simp [outcomes]
  | succ n =>
    rw [outcomes, hnext, h n, List.take_succ_cons, List.length_cons, Nat.add_sub_add_right]
    rfl

/-- Who stays as it is says the same for good. -/
theorem stay (hnext : nextMatch s = (last, s)) : Performs [] last s := by
  intro n
  induction n with
  | zero => rfl
  | succ n ih =>
    rw [outcomes, hnext, ih]
    simp [List.replicate_succ]

theorem fill {ms : List Match} {ending : Ending} (h : Performs (gotten ms) (ending.close none) s)
    (room : Nat) (out : Array Match) :
    ∃ s', Ranker.fill nextMatch room s out =
        (if room ≤ ms.length then .ok room else ending.close ms.length, out ++ ms.take room, s') ∧
      Performs (gotten (ms.drop room)) (ending.close none) s' := by
  induction room generalizing s ms out with
  | zero => exact ⟨s, by simp [Ranker.fill], h⟩
  | succ room ih =>
    cases ms with
    | nil =>
      obtain ⟨s', hnext, h'⟩ := h.nextMatch_nil
      refine ⟨s', ?_, h'⟩
      cases ending <;> simp [Ranker.fill, hnext, Ending.close]
    | cons m ms =>
      obtain ⟨s', hnext, h'⟩ := h.nextMatch_cons
      obtain ⟨s'', hfill, h''⟩ := ih h' (out.push m)
      have hout : out.push m ++ ms.take room = out ++ (m :: ms).take (room + 1) := by simp
      rw [hout] at hfill
      refine ⟨s'', ?_, h''⟩
      rw [Ranker.fill, hnext]
      dsimp only
      rw [hfill, List.length_cons]
      by_cases hroom : room ≤ ms.length
      · simp [hroom]
      · cases ending <;> simp [hroom, Ending.close]

end Performs

/-- A ranker that only knows single pulls dispenses the matches that these come to. -/
theorem plain_dispenses [PlainRanker σ] (ending : Ending) :
    Dispenses ending fun left (s : σ) => Performs (gotten left) (ending.close none) s where
  next_match h := h.nextMatch_cons
  next_end h := h.nextMatch_nil
  block := by
    intro left s out h
    obtain ⟨s', hfill, h'⟩ := h.fill blockCapacity out
    rw [← PlainRanker.nextBlock_eq] at hfill
    refine ⟨left.take blockCapacity, left.drop blockCapacity, _, s',
      (List.take_append_drop blockCapacity left).symm, hfill, h', ?_⟩
    rw [List.length_take]
    by_cases hfull : blockCapacity ≤ left.length
    · rw [if_pos hfull, Nat.min_eq_left hfull]
      refine .inl ⟨rfl, fun hnil => ?_⟩
      have hlen := congrArg List.length hnil
      rw [List.length_take, Nat.min_eq_left hfull] at hlen
      cases hlen
    · rw [if_neg hfull, Nat.min_eq_right (by omega)]
      exact .inr ⟨List.drop_of_length_le (by omega), rfl⟩

theorem Performs.delivers [PlainRanker σ] {l : Listing} {s : σ}
    (h : Performs (gotten l.items) (l.ending.close none) s) : Delivers l [] s :=
  ⟨_, plain_dispenses l.ending, l.items, rfl, h⟩

theorem Lists.delivers [PlainRanker σ] {ms : List Match} {s : σ} (h : Lists ms s) :
    Delivers { items := ms } [] s :=
  Performs.delivers (l := { items := ms }) h

end Ranker

/-! ## When nothing is left -/

/-- The reply to a pull when no match is left. -/
def Reply.nothing : Pull → Reply
  | .one => .one (.ok none)
  | .block held => .block (.ok 0) held
  | .all => .all (.ok #[])

theorem Reply.eq_nothing {reply : Reply} {p : Pull} (hshows : reply.Shows p [])
    (hended : reply.signal = .ended) : reply = Reply.nothing p := by
  cases p with
  | one =>
    rcases reply with (e | _ | m) | ⟨_, _⟩ | _
    all_goals first | exact hshows.elim | cases hended
    rfl
  | block held =>
    rcases reply with _ | ⟨e | _ | n, out⟩ | _
    all_goals first | exact hshows.elim | cases hended
    rw [hshows.1]
    simp [Reply.nothing]
  | all =>
    rcases reply with _ | ⟨_, _⟩ | (e | out)
    all_goals first | exact hshows.elim | cases hended
    rw [show out = #[] from Array.toList_inj.1 hshows]
    rfl

namespace Ranker

variable {σ : Type u} [Ranker σ] [Bounded σ]

theorem takenAll_append (ps qs : List Pull) : ∀ s : σ,
    takenAll (ps ++ qs) s = takenAll ps s ++ takenAll qs (pullAll ps s) := by
  induction ps with
  | nil => exact fun _ => rfl
  | cons p ps ih =>
    intro s
    rw [List.cons_append, takenAll, ih, takenAll, List.append_assoc]
    rfl

namespace Delivers

variable {ms : List Match} {s : σ}

/-- Who asks for all that is left gets it. -/
theorem pull_all {handed : List Match} (h : Delivers { items := ms } handed s) :
    handed ++ taken .all s = ms ∧ ∃ out, (Ranker.pull .all s).1 = .all (.ok out) := by
  have htells := (h.pull .all).2
  rcases hd : Ranker.drain s #[] with ⟨e | _, out, s'⟩
  · rw [pull_all_error hd] at htells
    cases htells.2
  · rw [pull_all_ok hd] at htells ⊢
    exact ⟨htells.1, out, rfl⟩

variable [LawfulRanker σ]

/-- With all matches handed out, every pull says that nothing is left. -/
theorem pull_nothing (h : Delivers { items := ms } ms s) (p : Pull) :
    (Ranker.pull p s).1 = Reply.nothing p ∧ Delivers { items := ms } ms (Ranker.pull p s).2 := by
  obtain ⟨h', htells⟩ := h.pull p
  have hnone : taken p s = [] := by
    obtain ⟨rest, hrest⟩ := h'.handed_prefix
    rw [List.append_assoc] at hrest
    exact (List.append_eq_nil_iff.1 (List.append_right_eq_self.1 hrest)).1
  have hshows := pull_shows p s
  rw [hnone] at hshows htells h'
  rw [List.append_nil] at h'
  refine ⟨Reply.eq_nothing hshows ?_, h'⟩
  cases hsignal : (Ranker.pull p s).1.signal with
  | more =>
    rw [hsignal] at htells
    exact absurd rfl htells
  | ended => rfl
  | failed e =>
    rw [hsignal] at htells
    cases htells.2

theorem pullAll_nothing (h : Delivers { items := ms } ms s) (ps : List Pull) :
    Delivers { items := ms } ms (Ranker.pullAll ps s) := by
  induction ps generalizing s with
  | nil => exact h
  | cons p ps ih => exact ih (h.pull_nothing p).2

end Delivers

/-- Single pulls alone get the whole list. -/
theorem Lists.takenAll_one {ms : List Match} {s : σ} (h : Lists ms s) :
    takenAll (List.replicate ms.length .one) s = ms := by
  induction ms generalizing s with
  | nil => rfl
  | cons m ms ih =>
    obtain ⟨s', hnext, h'⟩ := h.nextMatch_cons
    rw [List.length_cons, List.replicate_succ, takenAll, taken_one hnext, pull_one hnext]
    exact congrArg (m :: ·) (ih h')

end Ranker

/-! ## Rankers at hand -/

/-- What the report of an event comes to. -/
def Event.outcome : Event → Outcome
  | .yield m => .ok (some m)
  | .pause => .ok none
  | .fail e => .error e

/-- A live ranker performs its events and then its ending. -/
theorem Live.performs (l : Live) :
    Ranker.Performs (l.events.map Event.outcome) (l.ending.close none) l := by
  obtain ⟨events, ending⟩ := l
  induction events with
  | nil => exact .stay (by cases ending <;> rfl)
  | cons event events ih => exact .cons (by cases event <;> rfl) ih

/-- A live ranker that yields the matches of a listing and ends like it delivers it. -/
theorem Live.delivers (l : Listing) :
    Ranker.Delivers l [] ({ events := l.items.map .yield, ending := l.ending } : Live) := by
  apply Ranker.Performs.delivers
  have h := performs { events := l.items.map .yield, ending := l.ending }
  rwa [List.map_map] at h

theorem EmptyRanker.lists (r : EmptyRanker) : Ranker.Lists [] r := .stay rfl

/-- A ranker over matches computed up front lists those from its position on. -/
theorem VectorRanker.lists (r : VectorRanker) : Ranker.Lists (r.items.toList.drop r.position) r := by
  obtain ⟨items, position⟩ := r
  dsimp only
  induction hleft : items.size - position generalizing position with
  | zero =>
    have hend : items.size ≤ position := by omega
    rw [List.drop_of_length_le (by simpa using hend)]
    refine .stay ?_
    show nextMatch _ = _
    simp [nextMatch, Array.getElem?_eq_none hend]
  | succ left ih =>
    have hlt : position < items.size := by omega
    rw [List.drop_eq_getElem_cons (by simpa using hlt)]
    refine Ranker.Performs.cons ?_ (ih (position + 1) (by omega))
    show nextMatch _ = _
    simp [nextMatch, Array.getElem?_eq_getElem hlt]

theorem VectorRanker.ofList_lists (ms : List Match) : Ranker.Lists ms (ofList ms) := by
  have h := (ofList ms).lists
  simpa [ofList] using h

theorem VectorRanker.ofList_delivers (ms : List Match) :
    Ranker.Delivers { items := ms } [] (ofList ms) :=
  Ranker.Lists.delivers (ofList_lists ms)

/-! ## Runs of pulls -/

/-- A ranker that only knows single pulls loses and repeats nothing. However single pulls and blocks
follow one another, each spends the next share of what the ranker has to tell, which is the script if
it has one, and together they hand out the matches told up to there. If the ranker has nothing but
matches to tell, any pulls with one for all that is left behind them hand out just what single pulls
do, and every later pull says that nothing is left. -/
theorem Ranker.plain_pulls {σ : Type u} [Ranker σ] [PlainRanker σ] (s : σ) :
    (∀ ps : List Step,
      ∃ shares : List (List Outcome × Reply), shares.map Prod.snd = stepReplies ps s ∧
        List.Forall₂ (fun p share => Spends p share.1 share.2) ps shares ∧
        ∃ n, shares.flatMap Prod.fst = outcomes n s ∧ stepAll ps s = skip n s ∧
          stepTakenAll ps s = (outcomes n s).filterMap Outcome.match? ∧
          ∀ script last, Performs script last s →
            shares.flatMap Prod.fst =
              script.take n ++ List.replicate (n - script.length) last) ∧
    ∀ [Bounded σ] (ms : List Match), Lists ms s →
      takenAll (List.replicate ms.length .one) s = ms ∧
      ∀ ps, takenAll (ps ++ [.all]) s = ms ∧
        (∃ out, (pull .all (pullAll ps s)).1 = .all (.ok out)) ∧
        ∀ qs p, (pull p (pullAll (ps ++ .all :: qs) s)).1 = Reply.nothing p := by
  constructor
  · intro ps
    obtain ⟨shares, hreplies, hshares, n, hflat, hafter, htaken⟩ := steps_spend ps s
    exact ⟨shares, hreplies, hshares, n, hflat, hafter, htaken,
      fun script last h => hflat.trans (h n)⟩
  · intro _ ms h
    have hlawful : LawfulRanker σ :=
      ⟨fun {s s'} {out out'} {r} hb => fill_append ((PlainRanker.nextBlock_eq s out).symm.trans hb)⟩
    refine ⟨h.takenAll_one, fun ps => ?_⟩
    have hdelivers : Delivers { items := ms } (takenAll ps s) (pullAll ps s) :=
      Delivers.pullAll h.delivers ps
    obtain ⟨hall, hout⟩ := hdelivers.pull_all
    refine ⟨?_, hout, fun qs p => ?_⟩
    · rw [takenAll_append]
      have hlast : takenAll [.all] (pullAll ps s) = taken .all (pullAll ps s) := List.append_nil _
      rw [hlast, hall]
    · have hafter : pullAll (ps ++ .all :: qs) s = pullAll qs (pull .all (pullAll ps s)).2 := by
        rw [pullAll, List.foldl_append]
        rfl
      have hdone := (hdelivers.pull .all).1
      rw [hall] at hdone
      rw [hafter]
      exact ((hdone.pullAll_nothing qs).pull_nothing p).1

/-- A block that an end cuts short, one that a failure breaks off and a single pull behind them get
the three matches of a script; and of two matches, one is pulled alone and the other with all that
is left. -/
theorem Ranker.plain_pulls_of_script :
    let script : List Event :=
      [.yield ⟨1, 5⟩, .pause, .yield ⟨2, 6⟩, .fail (.ranker "gone"), .yield ⟨3, 7⟩]
    let ps : List Step := [.block #[], .block #[⟨0, 0⟩], .one]
    (∃ (shares : List (List Outcome × Reply)) (n : Nat),
      shares.map Prod.snd = stepReplies ps ({ events := script } : Live) ∧
      shares.flatMap Prod.fst =
        (script.map Event.outcome).take n ++ List.replicate (n - 5) (.ok none) ∧
      [⟨1, 5⟩, ⟨2, 6⟩, ⟨3, 7⟩] = (shares.flatMap Prod.fst).filterMap Outcome.match?) ∧
    takenAll ([.one] ++ [.all]) (VectorRanker.ofList [⟨1, 5⟩, ⟨2, 6⟩]) = [⟨1, 5⟩, ⟨2, 6⟩] := by
  intro script ps
  refine ⟨?_, (((plain_pulls _).2 _ (VectorRanker.ofList_lists _)).2 [.one]).1⟩
  obtain ⟨shares, hreplies, -, n, hflat, -, htaken, hscript⟩ :=
    (plain_pulls ({ events := script } : Live)).1 ps
  refine ⟨shares, n, hreplies, hscript _ _ (Live.performs _), ?_⟩
  rw [hflat]
  exact htaken

end ResultCache
