/-
Rankers of a fixed list of matches. A `Listing` is what a query has to give: matches, and then an end
for good, of which there are two kinds. In which blocks a ranker delivers a listing is its own
business, so what its replies tell of the listing is said without blocks (`Signal.Tells`). Of a
ranker that delivers a listing (`Ranker.Delivers`) single pulls and blocks are asked only to take
matches off the front of what is left; what any pulls come to, the one for all that is left included,
follows from that.
-/
import ResultCache.Proofs.Ranker.Replaying

namespace ResultCache

universe u

/-- All matches of a query and how they end. -/
structure Listing where
  items : List Match
  ending : Ending := .exhausted
  deriving DecidableEq, Repr

/-- What is said at the end: `a`, or the failure. -/
def Ending.close {α : Type} (a : α) : Ending → Except CacheError α
  | .exhausted => .ok a
  | .failing e => .error e

/-- What a signal tells of a listing, `ms` being handed out with it after `before`: there was a match
at least, or this is the end and how the listing ends. -/
def Signal.Tells (l : Listing) (before ms : List Match) : Signal → Prop
  | .more => ms ≠ []
  | .ended => before ++ ms = l.items ∧ l.ending = .exhausted
  | .failed e => before ++ ms = l.items ∧ l.ending = .failing e

namespace Ranker

variable {σ : Type u} [Ranker σ]

/-! ## Matches from the front -/

/-- Where a ranker has some matches left, it gives them out from the front, and with none left it
says how they end; a block that gives out the last match may say so at once. -/
structure Dispenses (ending : Ending) (has : List Match → σ → Prop) : Prop where
  next_match : ∀ {m : Match} {rest : List Match} {s : σ}, has (m :: rest) s →
    ∃ s', nextMatch s = (.ok (some m), s') ∧ has rest s'
  next_end : ∀ {s : σ}, has [] s → ∃ s', nextMatch s = (ending.close none, s') ∧ has [] s'
  block : ∀ {left : List Match} {s : σ} (out : Array Match), has left s →
    ∃ ms rest r s', left = ms ++ rest ∧ nextBlock s out = (r, out ++ ms, s') ∧ has rest s' ∧
      (r = .ok ms.length ∧ ms ≠ [] ∨ rest = [] ∧ r = ending.close ms.length)

namespace Dispenses

variable {ending : Ending} {has : List Match → σ → Prop} {left : List Match} {s : σ}

theorem step (hd : Dispenses ending has) (h : has left s) (p : Step) (before : List Match) :
    ∃ rest, left = stepTaken p s ++ rest ∧ has rest (Ranker.step p s).2 ∧
      (Ranker.step p s).1.signal.Tells { items := before ++ left, ending } before
        (stepTaken p s) := by
  cases p with
  | one =>
    cases left with
    | nil =>
      obtain ⟨s', hnext, h'⟩ := hd.next_end h
      rw [stepTaken_one hnext, step_one hnext]
      refine ⟨[], ?_, h', ?_⟩ <;> cases ending <;>
        simp [Ending.close, Reply.signal, Signal.Tells, Except.toOption]
    | cons m rest =>
      obtain ⟨s', hnext, h'⟩ := hd.next_match h
      rw [stepTaken_one hnext, step_one hnext]
      exact ⟨rest, rfl, h', List.cons_ne_nil m []⟩
  | block held =>
    obtain ⟨ms, rest, r, s', rfl, hblock, h', hr⟩ := hd.block held h
    rw [stepTaken_block hblock, step_block hblock]
    refine ⟨rest, rfl, h', ?_⟩
    rcases hr with ⟨rfl, hne⟩ | ⟨rfl, rfl⟩
    · obtain ⟨m, ms, rfl⟩ := List.exists_cons_of_ne_nil hne
      exact List.cons_ne_nil m ms
    · cases ending <;> cases ms <;> simp [Ending.close, Reply.signal, Signal.Tells]

/-- Blocks that give out matches bring the ranker to its end. -/
theorem drain [Bounded σ] (hd : Dispenses ending has) (h : has left s) (out : Array Match) :
    ∃ s', Ranker.drain s out = (ending.close (), out ++ left, s') ∧ has [] s' := by
  induction hlen : left.length using Nat.strongRecOn generalizing left s out with
  | _ len ih =>
    obtain ⟨ms, rest, r, s', rfl, hblock, h', hr⟩ := hd.block out h
    have hmore : r = .ok ms.length → ms ≠ [] →
        ∃ s', Ranker.drain s out = (ending.close (), out ++ (ms ++ rest), s') ∧ has [] s' := by
      rintro rfl hne
      obtain ⟨m, ms, rfl⟩ := List.exists_cons_of_ne_nil hne
      have hlt : rest.length < len := by
        rw [← hlen, List.length_append, List.length_cons]
        omega
      obtain ⟨s'', hdrain, h''⟩ := ih _ hlt h' (out ++ m :: ms) rfl
      have hout : out ++ m :: ms ++ rest = out ++ (m :: ms ++ rest) := Array.toList_inj.1 (by simp)
      exact ⟨s'', by rw [drain_block hblock, hdrain, hout], h''⟩
    rcases hr with ⟨hcount, hne⟩ | ⟨rfl, hclose⟩
    · exact hmore hcount hne
    · cases ending with
      | failing e =>
        rw [hclose] at hblock
        exact ⟨s', by rw [List.append_nil]; exact drain_error hblock, h'⟩
      | exhausted =>
        by_cases hne : ms = []
        · rw [hclose, hne] at hblock
          exact ⟨s', by rw [hne]; exact drain_end hblock, h'⟩
        · exact hmore hclose hne

theorem pull [Bounded σ] (hd : Dispenses ending has) (h : has left s) (p : Pull)
    (before : List Match) :
    ∃ rest, left = taken p s ++ rest ∧ has rest (Ranker.pull p s).2 ∧
      (Ranker.pull p s).1.signal.Tells { items := before ++ left, ending } before (taken p s) := by
  cases p using Pull.rec with
  | step p => exact hd.step h p before
  | all =>
    obtain ⟨s', hdrain, h'⟩ := hd.drain h #[]
    have htaken : taken .all s = left := by simp [taken, hdrain]
    refine ⟨[], by rw [htaken, List.append_nil], ?_, ?_⟩
    · cases ending with
      | exhausted => rwa [pull_all_ok hdrain]
      | failing e => rwa [pull_all_error hdrain]
    · rw [htaken]
      cases ending with
      | exhausted => rw [pull_all_ok hdrain]; exact ⟨rfl, rfl⟩
      | failing e => rw [pull_all_error hdrain]; exact ⟨rfl, rfl⟩

end Dispenses

/-! ## Delivering a listing -/

/-- A ranker that delivers a listing, `handed` of which has been handed out. -/
def Delivers (l : Listing) (handed : List Match) (s : σ) : Prop :=
  ∃ has : List Match → σ → Prop, Dispenses l.ending has ∧
    ∃ rest, l.items = handed ++ rest ∧ has rest s

namespace Delivers

variable {l : Listing} {handed : List Match} {s : σ}

theorem handed_prefix (h : Delivers l handed s) : handed <+: l.items := by
  obtain ⟨-, -, rest, hitems, -⟩ := h
  exact ⟨rest, hitems.symm⟩

variable [Bounded σ]

/-- Pulls hand out what is left of the listing from the front, and say so truly. -/
theorem pull (h : Delivers l handed s) (p : Pull) :
    Delivers l (handed ++ taken p s) (Ranker.pull p s).2 ∧
      (Ranker.pull p s).1.signal.Tells l handed (taken p s) := by
  obtain ⟨has, hd, rest, hitems, hs⟩ := h
  obtain ⟨rest', hrest, hs', htells⟩ := hd.pull hs p handed
  rw [← hitems] at htells
  exact ⟨⟨has, hd, rest', by rw [hitems, hrest, List.append_assoc], hs'⟩, htells⟩

theorem pullAll (h : Delivers l handed s) (ps : List Pull) :
    Delivers l (handed ++ takenAll ps s) (Ranker.pullAll ps s) := by
  induction ps generalizing handed s with
  | nil => rwa [takenAll, List.append_nil]
  | cons p ps ih =>
    have hrest := ih (h.pull p).1
    rwa [List.append_assoc] at hrest

end Delivers

end Ranker

/-! ## Replayed -/

namespace Feed

variable {f : Feed}

/-- What a pull hands out comes off the front of what is left. -/
theorem taken_append_left (hfull : ∀ g ∈ f.later, g ≠ []) (p : Pull) :
    f.taken p ++ (f.advance p).left = f.left := by
  cases p with
  | one =>
    obtain ⟨unread, later, damage⟩ := f
    cases unread with
    | cons m ms => rfl
    | nil =>
      cases later with
      | nil => rfl
      | cons g later =>
        obtain ⟨m, ms, rfl⟩ := List.exists_cons_of_ne_nil (hfull g (by simp))
        rfl
  | block held => exact chunk_append_left held f
  | all => exact List.append_nil _

theorem later_advance (p : Pull) : ∀ g ∈ (f.advance p).later, g ∈ f.later := by
  obtain ⟨unread, later, damage⟩ := f
  intro g hg
  cases p with
  | one =>
    cases unread with
    | nil => rcases later with _ | ⟨_ | ⟨m, ms⟩, later⟩ <;> simp_all [advance]
    | cons m ms => exact hg
  | block held => cases unread <;> simp_all [advance, List.mem_of_mem_tail]
  | all => cases hg

end Feed

namespace Replay

/-- A replay with these matches left and nothing wrong behind them. -/
structure Has (left : List Match) (r : Replay) : Prop where
  left_eq : r.feed.left = left
  sound : r.feed.damage = none
  full : ∀ g ∈ r.feed.later, g ≠ []

theorem Has.advance {left : List Match} {r r' : Replay} (h : r.Has left) {p : Pull}
    (hfeed : r'.feed = r.feed.advance p) :
    ∃ rest, left = r.feed.taken p ++ rest ∧ r'.Has rest := by
  refine ⟨r'.feed.left, ?_, rfl, ?_, ?_⟩
  · rw [hfeed, Feed.taken_append_left h.full, h.left_eq]
  · rw [hfeed, Feed.advance_damage, h.sound]
  · rw [hfeed]
    exact fun g hg => h.full g (Feed.later_advance p g hg)

theorem dispenses : Ranker.Dispenses .exhausted fun left r => Has left r where
  next_match := by
    intro m rest r h
    rcases pull_cases r with ⟨hunread, hlater, -⟩ | ⟨m', ms, r₁, -, hchunk, ⟨hone, hfeed, -⟩, -⟩
    · have hleft := h.left_eq
      rw [Feed.left, hunread, hlater] at hleft
      cases hleft
    · obtain ⟨rest', hleft⟩ := Feed.left_of_chunk hchunk
      obtain ⟨rest'', htaken, h'⟩ := h.advance hfeed
      rw [Feed.taken, hleft] at htaken
      cases htaken
      exact ⟨r₁, hone, h'⟩
  next_end := by
    intro r h
    rcases pull_cases r with ⟨-, -, r₁, hfeed, -, hone, -⟩ | ⟨m, ms, -, -, hchunk, -⟩
    · rw [Feed.close, h.sound] at hone
      exact ⟨r₁, hone, hfeed ▸ h.left_eq, hfeed ▸ h.sound, hfeed ▸ h.full⟩
    · obtain ⟨rest, hleft⟩ := Feed.left_of_chunk hchunk
      rw [h.left_eq] at hleft
      cases hleft
  block := by
    intro left r out h
    rcases pull_cases r with ⟨hunread, hlater, r₁, hfeed, -, -, hblock⟩ |
      ⟨m, ms, -, r₂, hchunk, -, hblock⟩
    · have hnone : left = [] := by rw [← h.left_eq, Feed.left, hunread, hlater]; rfl
      have hout : out ++ ([] : List Match) = out := by simp
      have hend := hblock out
      rw [Feed.close, h.sound] at hend
      refine ⟨[], [], _, r₁, hnone, by rw [hout, hend]; rfl, ?_, .inr ⟨rfl, rfl⟩⟩
      exact ⟨by rw [hfeed, h.left_eq, hnone], hfeed ▸ h.sound, hfeed ▸ h.full⟩
    · obtain ⟨hnext, hfeed, -⟩ := hblock out
      obtain ⟨rest, hleft, h'⟩ := h.advance hfeed
      rw [Feed.taken, hchunk] at hleft
      exact ⟨m :: ms, rest, _, r₂, hleft, hnext, h', .inl ⟨rfl, List.cons_ne_nil m ms⟩⟩

/-- An entry that records a listing is replayed as the listing. -/
theorem start_delivers {l : Listing} {e : Entry} (hunpack : e.unpack = .ok l.items.toArray)
    (hending : l.ending = .exhausted) : Ranker.Delivers l [] (start e) := by
  obtain ⟨hsound, hitems⟩ := Stream.unpack_eq_ok_iff_frames.1 hunpack
  refine ⟨fun left r => Has left r, hending ▸ dispenses, l.items, rfl, hitems, hsound, ?_⟩
  exact fun g => Reader.ne_nil_of_mem_frames

end Replay

/-! ## In a box -/

/-- A ranker in a box delivers what it delivers outside. -/
theorem BoxedRanker.delivers {σ : Type} [Ranker σ] [Ranker.Bounded σ] {l : Listing}
    {handed : List Match} {s : σ} (h : Ranker.Delivers l handed s) :
    Ranker.Delivers l handed (⟨s⟩ : BoxedRanker) := by
  obtain ⟨has, hd, rest, hitems, hs⟩ := h
  refine ⟨fun left b => ∃ s : σ, b = ⟨s⟩ ∧ has left s, ⟨?_, ?_, ?_⟩, rest, hitems, s, rfl, hs⟩
  · rintro m rest _ ⟨s, rfl, hs⟩
    obtain ⟨s', hnext, h'⟩ := hd.next_match hs
    refine ⟨⟨s'⟩, ?_, s', rfl, h'⟩
    show BoxedRanker.nextMatch _ = _
    rw [BoxedRanker.nextMatch, hnext]
  · rintro _ ⟨s, rfl, hs⟩
    obtain ⟨s', hnext, h'⟩ := hd.next_end hs
    refine ⟨⟨s'⟩, ?_, s', rfl, h'⟩
    show BoxedRanker.nextMatch _ = _
    rw [BoxedRanker.nextMatch, hnext]
  · rintro left _ out ⟨s, rfl, hs⟩
    obtain ⟨ms, rest, r, s', hleft, hblock, h', hr⟩ := hd.block out hs
    refine ⟨ms, rest, r, ⟨s'⟩, hleft, ?_, ⟨s', rfl, h'⟩, hr⟩
    show BoxedRanker.nextBlock _ _ = _
    rw [BoxedRanker.nextBlock, hblock]

end ResultCache
