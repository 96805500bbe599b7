/-
Rankers, pulled by whoever sorts the results. A consumer asks for one match, for a block, or for
all that is left, and may stop at any time. Only a ranker that comes to an end can be asked for all:
`Ranker.collect` ends because every block that delivers matches brings the ranker nearer to it.
-/
import ResultCache.Error
import ResultCache.Match

namespace ResultCache

universe u

/-- The most matches a ranker hands out in one block. -/
def blockCapacity : Nat := 32

/-- A producer of ranked matches. -/
class Ranker (σ : Type u) where
  /-- The next match, or nothing at the end. -/
  nextMatch : σ → Except CacheError (Option Match) × σ
  /-- Puts the next matches onto a list and tells how many; none means the end. -/
  nextBlock : σ → Array Match → Except CacheError Nat × Array Match × σ

/-- A ranker that does not go on for ever. -/
class Ranker.Bounded (σ : Type u) [Ranker σ] where
  /-- A bound on the blocks still to come. -/
  left : σ → Nat
  /-- A block that delivers matches takes off the bound. -/
  left_lt_of_block : ∀ {s s' : σ} {out out' : Array Match} {n : Nat},
    Ranker.nextBlock s out = (.ok (n + 1), out', s') → left s' < left s

namespace Ranker

variable {σ : Type u}

/-! ## Blocks of single pulls -/

/-- Pulls single matches onto `out` until `room` of them came, the end is reported or a pull fails.
What came before a failure stays on the list. -/
def fill (next : σ → Except CacheError (Option Match) × σ) :
    Nat → σ → Array Match → Except CacheError Nat × Array Match × σ
  | 0, s, out => (.ok 0, out, s)
  | room + 1, s, out =>
    match next s with
    | (.error e, s') => (.error e, out, s')
    | (.ok none, s') => (.ok 0, out, s')
    | (.ok (some m), s') =>
      match fill next room s' (out.push m) with
      | (.ok n, out', s'') => (.ok (n + 1), out', s'')
      | (.error e, out', s'') => (.error e, out', s'')

theorem fill_left_le {next : σ → Except CacheError (Option Match) × σ} {left : σ → Nat}
    (le : ∀ s, left (next s).2 ≤ left s) :
    ∀ (room : Nat) (s : σ) (out : Array Match), left (fill next room s out).2.2 ≤ left s
  | 0, s, _ => Nat.le_refl (left s)
  | room + 1, s, out => by
    have hs := le s
    rw [fill]
    rcases hn : next s with ⟨e | _ | m, s'⟩ <;> rw [hn] at hs
    · exact hs
    · exact hs
    · have hr := fill_left_le le room s' (out.push m)
      dsimp only at hs ⊢
      rcases hf : fill next room s' (out.push m) with ⟨e | n, out', s''⟩
      · rw [hf] at hr; exact Nat.le_trans hr hs
      · rw [hf] at hr; exact Nat.le_trans hr hs

/-- Filling takes off any bound that single pulls take off. -/
theorem fill_left_lt {next : σ → Except CacheError (Option Match) × σ} {left : σ → Nat}
    (le : ∀ s, left (next s).2 ≤ left s)
    (lt : ∀ {s s' m}, next s = (.ok (some m), s') → left s' < left s)
    {room n : Nat} {s s' : σ} {out out' : Array Match}
    (h : fill next room s out = (.ok (n + 1), out', s')) : left s' < left s := by
  cases room with
  | zero => cases h
  | succ room =>
    rw [fill] at h
    rcases hn : next s with ⟨e | _ | m, t⟩
    · rw [hn] at h; cases h
    · rw [hn] at h; cases h
    · rw [hn] at h
      dsimp only at h
      have hr := fill_left_le le room t (out.push m)
      rcases hf : fill next room t (out.push m) with ⟨e | k, out₁, t'⟩
      · rw [hf] at h; cases h
      · rw [hf] at h hr
        cases h
        exact Nat.lt_of_le_of_lt hr (lt hn)

/-! ## All that is left -/

variable [Ranker σ]

/-- Pulls blocks onto `out` until the end is reported or a block fails. -/
def drain [Bounded σ] (s : σ) (out : Array Match) : Except CacheError Unit × Array Match × σ :=
  match _h : nextBlock s out with
  | (.error e, out', s') => (.error e, out', s')
  | (.ok 0, out', s') => (.ok (), out', s')
  | (.ok (_ + 1), out', s') => drain s' out'
termination_by Bounded.left s
decreasing_by exact Bounded.left_lt_of_block _h

/-- All that is left; a failure drops what came before it. -/
def collect [Bounded σ] (s : σ) : Except CacheError (Array Match) × σ :=
  match drain s #[] with
  | (.ok _, out, s') => (.ok out, s')
  | (.error e, _, s') => (.error e, s')

end Ranker

/-! ## Pulls as data -/

/-- What a consumer asks any ranker for. -/
inductive Step where
  | one
  /-- A block, onto matches the consumer already holds. -/
  | block (held : Array Match)
  deriving DecidableEq, Repr

/-- What a consumer asks a ranker for that comes to an end. -/
inductive Pull where
  | step (p : Step)
  | all
  deriving DecidableEq, Repr

namespace Pull

/-- A single pull. -/
@[match_pattern] abbrev one : Pull := .step .one

/-- A pull of a block. -/
@[match_pattern] abbrev block (held : Array Match) : Pull := .step (.block held)

/-- Pulls are single ones, blocks, and the one for all that is left. -/
@[elab_as_elim, cases_eliminator]
def byKind {motive : Pull → Sort u} (one : motive .one) (block : ∀ held, motive (.block held))
    (all : motive .all) : ∀ p, motive p
  | .step .one => one
  | .step (.block held) => block held
  | .all => all

end Pull

/-- What a consumer gets. -/
inductive Reply where
  | one (result : Except CacheError (Option Match))
  /-- The count, or why there is none, and what the list then holds. -/
  | block (result : Except CacheError Nat) (out : Array Match)
  | all (result : Except CacheError (Array Match))

namespace Ranker

variable {σ : Type u} [Ranker σ]

/-- Answers a pull that any ranker answers. -/
def step (p : Step) (s : σ) : Reply × σ :=
  match p with
  | .one => let (r, s) := nextMatch s; (.one r, s)
  | .block held => let (r, out, s) := nextBlock s held; (.block r out, s)

/-- Answers one request. -/
def pull [Bounded σ] (p : Pull) (s : σ) : Reply × σ :=
  match p with
  | .step p => step p s
  | .all => let (r, s) := collect s; (.all r, s)

end Ranker

end ResultCache
