/-
Replaying an entry, sound or damaged. What a reader makes of a stream is a list of frames and maybe
a damage behind them (`Stream.frames`). A replay hands these frames out from the first match on,
whatever is asked of it in whatever order: `Feed` is how far it has come, `Replay.pull_eq` that
every pull does on the replay what it does on the feed.
-/
import ResultCache.Proofs.Ranker.Pulling
import ResultCache.Ranker.Replay

namespace ResultCache

/-! ## The frames of a stream -/

namespace Reader

/-- The frames read before there are no more matches or a frame is damaged, and that damage. -/
def frames (bytes : Array UInt8) (weights : Array UInt32) (r : Reader) :
    List (List Match) × Option Damage :=
  match _h : r.frame bytes weights with
  | .error d => ([], some d)
  | .ok ([], _) => ([], none)
  | .ok (m :: ms, r') => ((m :: ms) :: (frames bytes weights r').1, (frames bytes weights r').2)
termination_by r.remaining
decreasing_by all_goals have := frame_remaining _h; simp only [List.length_cons] at this; omega

variable {bytes : Array UInt8} {weights : Array UInt32} {r r' : Reader}

theorem frames_error {d : Damage} (h : r.frame bytes weights = .error d) :
    r.frames bytes weights = ([], some d) := by
  rw [frames]
  split <;> simp_all

theorem frames_done (h : r.frame bytes weights = .ok ([], r')) :
    r.frames bytes weights = ([], none) := by
  rw [frames]
  split <;> simp_all

theorem frames_next {m : Match} {ms : List Match} (h : r.frame bytes weights = .ok (m :: ms, r')) :
    r.frames bytes weights =
      ((m :: ms) :: (r'.frames bytes weights).1, (r'.frames bytes weights).2) := by
  rw [frames]
  split <;> simp_all

theorem ne_nil_of_mem_frames {f : List Match} :
    ∀ {r : Reader}, f ∈ (r.frames bytes weights).1 → f ≠ [] := by
  intro r
  fun_induction frames bytes weights r with
  | case1 r d h => simp
  | case2 r r' h => simp
  | case3 r m ms r' h ih =>
    intro hf
    rcases List.mem_cons.1 hf with rfl | hf
    · exact List.cons_ne_nil m ms
    · exact ih hf

/-- A reader at the end of its stream stays there. -/
theorem frame_stays (h : r.frame bytes weights = .ok ([], r')) : r' = r := by
  unfold frame at h
  split at h
  · split at h
    · cases h
      rfl
    · cases h
  · split at h
    · cases h
    · obtain ⟨⟨count, c⟩, -, h⟩ := bind_eq_ok.1 h
      dsimp only at h
      split at h
      · cases h
      · -- a frame that is read has at least one match
        rename_i hcount
        obtain ⟨⟨ms, last, c'⟩, hms, h⟩ := bind_eq_ok.1 h
        cases h
        have hlen := readMatches_length hms
        rw [List.length_nil] at hlen
        omega

theorem readAll_eq (r : Reader) (out : Array Match) :
    r.readAll bytes weights out =
      match r.frames bytes weights with
      | (fs, none) => .ok (out ++ fs.flatten)
      | (_, some d) => .error d := by
  fun_induction readAll bytes weights r out with
  | case1 r out d h => rw [frames_error h]
  | case2 r out r' h => rw [frames_done h]; simp
  | case3 r out m ms r' h ih =>
    rw [ih, frames_next h]
    rcases r'.frames bytes weights with ⟨fs, _ | d⟩
    · exact congrArg Except.ok (Array.toList_inj.1 (by simp))
    · rfl

end Reader

/-- The frames of a stream that are read before the first damage, and that damage. -/
def Stream.frames (s : Stream) : List (List Match) × Option Damage :=
  (Reader.start s.total).frames s.bytes s.weights

/-- A stream is read as a whole if no frame is damaged. -/
theorem Stream.unpack_eq_ok_iff_frames {s : Stream} {ms : Array Match} :
    s.unpack = .ok ms ↔ s.frames.2 = none ∧ s.frames.1.flatten = ms.toList := by
  unfold unpack
  rw [Reader.readAll_eq]
  show (match s.frames with
    | (fs, none) => Except.ok (#[] ++ fs.flatten)
    | (_, some d) => Except.error d) = _ ↔ _
  rcases s.frames with ⟨fs, _ | d⟩
  · rw [Except.ok.injEq, ← Array.toList_inj]
    simp
  · simp

/-! ## Feeds -/

/-- How far some frames have been handed out. -/
structure Feed where
  /-- What is left of a frame of which a part has been handed out. -/
  unread : List Match := []
  /-- The frames of which nothing has been handed out. -/
  later : List (List Match)
  /-- What is wrong behind the last frame. -/
  damage : Option Damage

namespace Feed

/-- All that is left. -/
def left (f : Feed) : List Match := f.unread ++ f.later.flatten

/-- The next block: the rest of a frame that is partly handed out, or else the next frame. -/
def chunk (f : Feed) : List Match :=
  match f.unread with
  | [] => f.later.headD []
  | m :: ms => m :: ms

/-- What is said at the end: `a`, or what is wrong there. -/
def close {α : Type} (a : α) (f : Feed) : Except CacheError α :=
  match f.damage with
  | none => .ok a
  | some d => .error (.corrupt d)

/-- What a pull hands out. -/
def taken : Pull → Feed → List Match
  | .one, f => f.left.take 1
  | .block _, f => f.chunk
  | .all, f => f.left

/-- The answer to a pull. -/
def reply : Pull → Feed → Reply
  | .one, f =>
    match f.left with
    | [] => .one (f.close none)
    | m :: _ => .one (.ok (some m))
  | .block held, f =>
    match f.chunk with
    | [] => .block (f.close 0) held
    | m :: ms => .block (.ok (ms.length + 1)) (held ++ (m :: ms))
  | .all, f => .all (f.close f.left.toArray)

/-- The feed behind a pull. -/
def advance : Pull → Feed → Feed
  | .one, f =>
    match f.unread, f.later with
    | _ :: ms, _ => { f with unread := ms }
    | [], (_ :: ms) :: fs => { f with unread := ms, later := fs }
    | [], _ => f
  | .block _, f =>
    match f.unread with
    | [] => { f with later := f.later.tail }
    | _ :: _ => { f with unread := [] }
  | .all, f => { f with unread := [], later := [] }

/-- How many blocks are left. -/
def blocks (f : Feed) : Nat :=
  match f.unread with
  | [] => f.later.length
  | _ :: _ => f.later.length + 1

/-- Of some frames `handed` has been handed out: all frames begun but for the unread rest of the
last of them. -/
def At (frames : List (List Match)) (handed : List Match) (f : Feed) : Prop :=
  ∃ begun, frames = begun ++ f.later ∧ begun.flatten = handed ++ f.unread ∧
    (f.unread ≠ [] → ∃ whole part, begun = whole ++ [part ++ f.unread] ∧ part ≠ [])

@[simp] theorem advance_damage (p : Pull) (f : Feed) : (f.advance p).damage = f.damage := by
  unfold advance
  split
  · split <;> rfl
  · split <;> rfl
  · rfl

@[simp] theorem close_advance {α : Type} (a : α) (p : Pull) (f : Feed) :
    (f.advance p).close a = f.close a := by
  unfold close
  rw [advance_damage]

@[simp] theorem advance_all_advance (p : Pull) (f : Feed) :
    (f.advance p).advance .all = f.advance .all := by
  show ({ unread := [], later := [], damage := (f.advance p).damage } : Feed) = _
  rw [advance_damage]
  rfl

/-- At the end all is said by whether there is a damage. -/
theorem close_eq_map {α β : Type} (a : α) (b : β) (f : Feed) :
    f.close b = (f.close a).map fun _ => b := by
  unfold close
  cases f.damage <;> rfl

theorem chunk_append_left (held : Array Match) (f : Feed) :
    f.chunk ++ (f.advance (.block held)).left = f.left := by
  obtain ⟨unread, later, damage⟩ := f
  cases unread with
  | cons m ms => simp [chunk, left, advance]
  | nil => cases later <;> simp [chunk, left, advance]

variable {f : Feed} {frames : List (List Match)} {handed : List Match}

/-- Nothing goes on behind the end. -/
theorem advance_eq_self (hunread : f.unread = []) (hlater : f.later = []) (p : Pull) :
    f.advance p = f := by
  obtain ⟨unread, later, damage⟩ := f
  dsimp only at hunread hlater
  subst hunread hlater
  cases p <;> rfl

theorem chunk_of_left (h : f.left = []) : f.chunk = [] := by
  rw [← chunk_append_left #[]] at h
  exact (List.append_eq_nil_iff.1 h).1

theorem left_of_chunk {m : Match} {ms : List Match} (h : f.chunk = m :: ms) :
    ∃ rest, f.left = m :: rest := by
  rw [← chunk_append_left #[], h]
  exact ⟨_, rfl⟩

theorem At.append_left (h : f.At frames handed) : handed ++ f.left = frames.flatten := by
  obtain ⟨begun, rfl, hbegun, -⟩ := h
  rw [left, List.flatten_append, hbegun, List.append_assoc]

theorem At.advance (h : f.At frames handed) (hfull : ∀ g ∈ frames, g ≠ []) (p : Pull) :
    (f.advance p).At frames (handed ++ f.taken p) := by
  obtain ⟨begun, rfl, hbegun, hpart⟩ := h
  obtain ⟨unread, later, damage⟩ := f
  dsimp only at hbegun hpart hfull
  cases unread with
  | cons m ms =>
    obtain ⟨whole, part, rfl, -⟩ := hpart (List.cons_ne_nil m ms)
    have hwhole : whole.flatten ++ part = handed := by
      have : whole.flatten ++ part ++ m :: ms = handed ++ m :: ms := by simpa using hbegun
      exact List.append_cancel_right this
    cases p with
    | one =>
      refine ⟨_, rfl, ?_, fun _ => ⟨whole, part ++ [m], by simp [Feed.advance], by simp⟩⟩
      simp [Feed.advance, Feed.taken, left, ← hwhole]
    | block held =>
      refine ⟨_, rfl, ?_, fun h => absurd rfl h⟩
      simp [Feed.advance, Feed.taken, chunk, ← hwhole]
    | all =>
      refine ⟨whole ++ [part ++ m :: ms] ++ later, by simp [Feed.advance], ?_, fun h => absurd rfl h⟩
      simp [Feed.advance, Feed.taken, left, ← hwhole]
  | nil =>
    rw [List.append_nil] at hbegun
    cases p with
    | one =>
      cases later with
      | nil =>
        refine ⟨begun, rfl, ?_, fun h => absurd rfl h⟩
        simp [Feed.advance, Feed.taken, left, hbegun]
      | cons g later =>
        cases g with
        | nil => exact absurd rfl (hfull [] (by simp))
        | cons m ms =>
          refine ⟨begun ++ [m :: ms], by simp [Feed.advance], ?_, fun _ => ⟨begun, [m], rfl, by simp⟩⟩
          simp [Feed.advance, Feed.taken, left, hbegun]
    | block held =>
      cases later with
      | nil =>
        refine ⟨begun, rfl, ?_, fun h => absurd rfl h⟩
        simp [Feed.advance, Feed.taken, chunk, hbegun]
      | cons g later =>
        refine ⟨begun ++ [g], by simp [Feed.advance], ?_, fun h => absurd rfl h⟩
        simp [Feed.advance, Feed.taken, chunk, hbegun]
    | all =>
      refine ⟨begun ++ later, by simp [Feed.advance], ?_, fun h => absurd rfl h⟩
      simp [Feed.advance, Feed.taken, left, hbegun]

/-- The frames not begun and the one partly handed out are different ones. -/
theorem At.blocks_le (h : f.At frames handed) : f.blocks ≤ frames.length := by
  obtain ⟨begun, rfl, -, hpart⟩ := h
  unfold blocks
  split
  · simp
  · rename_i m ms hunread
    obtain ⟨whole, part, rfl, -⟩ := hpart (by simp [hunread])
    simp only [List.length_append, List.length_singleton]
    omega

/-- Every block counts. -/
theorem blocks_run_out (held : Array Match) (later : List (List Match)) :
    ∀ {f : Feed}, f.later = later →
      ((List.replicate f.blocks (.block held)).foldl (fun f p => f.advance p) f).left = [] := by
  have hwhole : ∀ {f : Feed}, f.unread = [] → f.later = later →
      ((List.replicate later.length (.block held)).foldl (fun f p => f.advance p) f).left = [] := by
    induction later with
    | nil => intro f hunread hlater; simp [left, hunread, hlater]
    | cons g later ih =>
      intro f hunread hlater
      have hstep : f.advance (.block held) = { f with later } := by
        simp [Feed.advance, hunread, hlater]
      rw [List.length_cons, List.replicate_succ, List.foldl_cons, hstep]
      exact ih hunread rfl
  intro f hlater
  cases hunread : f.unread with
  | nil =>
    rw [blocks, hunread, hlater]
    exact hwhole hunread hlater
  | cons m ms =>
    have hstep : f.advance (.block held) = { f with unread := [] } := by
      simp [Feed.advance, hunread]
    rw [blocks, hunread, hlater]
    rw [List.replicate_succ, List.foldl_cons, hstep]
    exact hwhole rfl hlater

/-- At the end nothing is handed out, and every pull says what stands there. -/
theorem reply_end (h : f.left = []) (p : Pull) :
    f.taken p = [] ∧ (f.reply p).signal =
      match f.damage with
      | none => .ended
      | some d => .failed (.corrupt d) := by
  have hchunk := chunk_of_left h
  unfold Feed.reply Feed.taken close
  cases p with
  | one => cases hd : f.damage <;> simp [h, hd, Reply.signal]
  | block held => cases hd : f.damage <;> simp [hchunk, hd, Reply.signal]
  | all => cases hd : f.damage <;> simp [h, hd, Reply.signal]

end Feed

/-! ## Replays -/

namespace Replay

/-- How far a replay has come. Once it has met a damage, nothing is left. -/
def feed (r : Replay) : Feed :=
  match r.failure with
  | some d => { later := [], damage := some d }
  | none =>
    { unread := r.unread
      later := (r.reader.frames r.entry.stream.bytes r.entry.stream.weights).1
      damage := (r.reader.frames r.entry.stream.bytes r.entry.stream.weights).2 }

/-- A replay either is at its end, and then every pull says so, or has a next block to hand out,
whose first match is the next one. -/
theorem pull_cases (r : Replay) :
    (r.feed.unread = [] ∧ r.feed.later = [] ∧
      ∃ r', r'.feed = r.feed ∧ r'.remaining = r.remaining ∧
        Ranker.nextMatch r = (r.feed.close none, r') ∧
        ∀ out, Ranker.nextBlock r out = (r.feed.close 0, out, r')) ∨
    ∃ m ms r₁ r₂, r.feed.chunk = m :: ms ∧
      (Ranker.nextMatch r = (.ok (some m), r₁) ∧
        r₁.feed = r.feed.advance .one ∧ r₁.remaining + 1 = r.remaining) ∧
      ∀ out, Ranker.nextBlock r out = (.ok (ms.length + 1), out ++ (m :: ms), r₂) ∧
        r₂.feed = r.feed.advance (.block out) ∧ r₂.remaining + (ms.length + 1) = r.remaining := by
  show (_ ∧ _ ∧ ∃ r', _ ∧ _ ∧ r.nextMatch = _ ∧ ∀ out, r.nextBlock out = _) ∨
    ∃ m ms r₁ r₂, _ ∧ (r.nextMatch = _ ∧ _) ∧ ∀ out, r.nextBlock out = _ ∧ _
  obtain ⟨entry, reader, unread, failure⟩ := r
  cases failure with
  | some d => exact .inl ⟨rfl, rfl, _, rfl, rfl, rfl, fun _ => rfl⟩
  | none =>
    cases unread with
    | cons m ms => exact .inr ⟨m, ms, _, _, rfl, ⟨rfl, rfl, rfl⟩, fun _ => ⟨rfl, rfl, rfl⟩⟩
    | nil =>
      unfold nextMatch nextBlock nextFrame feed
      dsimp only
      rcases hf : reader.frame entry.stream.bytes entry.stream.weights with d | ⟨_ | ⟨m, ms⟩, reader'⟩
      · rw [Reader.frames_error hf]
        exact .inl ⟨rfl, rfl, { entry, reader, failure := some d }, rfl, rfl, rfl, fun _ => rfl⟩
      · rw [Reader.frames_done hf]
        obtain rfl := Reader.frame_stays hf
        refine .inl ⟨rfl, rfl, { entry, reader := reader' }, ?_, rfl, rfl, fun out => ?_⟩
        · dsimp only
          rw [Reader.frames_done hf]
        · simp [Feed.close]
      · -- the frame is taken off what the reader still expects
        have hremaining := Reader.frame_remaining hf
        rw [List.length_cons] at hremaining
        rw [Reader.frames_next hf]
        refine .inr ⟨m, ms, _, _, rfl, ⟨rfl, rfl, ?_⟩, fun _ => ⟨rfl, rfl, ?_⟩⟩
        · show reader'.remaining + ms.length + 1 = reader.remaining + 0
          omega
        · show reader'.remaining + 0 + (ms.length + 1) = reader.remaining + 0
          omega

instance : LawfulRanker Replay where
  block_append := by
    intro r r' out out' res h
    rcases pull_cases r with ⟨-, -, r₁, -, -, -, hblock⟩ | ⟨m, ms, -, r₂, -, -, hblock⟩
    · rw [hblock] at h
      cases h
      refine ⟨[], by simp, fun n hn => ?_⟩
      unfold Feed.close at hn
      split at hn <;> cases hn
      rfl
    · rw [(hblock out).1] at h
      cases h
      exact ⟨m :: ms, rfl, fun n hn => by cases hn; rfl⟩

/-- A block without matches is the end. -/
theorem nextBlock_end {r r' : Replay} {out out' : Array Match} {res : Except CacheError Nat}
    (h : Ranker.nextBlock r out = (res, out', r')) (hres : ∀ n, res ≠ .ok (n + 1)) :
    res = r.feed.close 0 ∧ out' = out ++ r.feed.left ∧ r'.feed = r.feed.advance .all := by
  rcases pull_cases r with ⟨hunread, hlater, r₁, hfeed, -, -, hblock⟩ | ⟨m, ms, -, r₂, -, -, hblock⟩
  · rw [hblock] at h
    cases h
    rw [Feed.advance_eq_self hunread hlater]
    exact ⟨rfl, by simp [Feed.left, hunread, hlater], hfeed⟩
  · rw [(hblock out).1] at h
    cases h
    exact absurd rfl (hres ms.length)

/-- Draining a replay gives all that is left and then says what stands at the end. -/
theorem drain_feed (r : Replay) (out : Array Match) :
    (Ranker.drain r out).1 = r.feed.close () ∧ (Ranker.drain r out).2.1 = out ++ r.feed.left ∧
      (Ranker.drain r out).2.2.feed = r.feed.advance .all := by
  fun_induction Ranker.drain r out with
  | case1 r out e out' r' h =>
    obtain ⟨he, hout, hfeed⟩ := nextBlock_end h (by simp)
    exact ⟨by rw [Feed.close_eq_map 0, ← he]; rfl, hout, hfeed⟩
  | case2 r out out' r' h =>
    obtain ⟨he, hout, hfeed⟩ := nextBlock_end h (by simp)
    exact ⟨by rw [Feed.close_eq_map 0, ← he]; rfl, hout, hfeed⟩
  | case3 r out n out' r' h ih =>
    obtain ⟨hres, hout, hfeed⟩ := ih
    rcases pull_cases r with ⟨-, -, r₁, -, -, -, hblock⟩ | ⟨m, ms, -, r₂, hchunk, -, hblock⟩
    · rw [hblock] at h
      have hclose := congrArg Prod.fst h
      rw [Feed.close] at hclose
      split at hclose <;> cases hclose
    · obtain ⟨hblock, hr₂, -⟩ := hblock out
      rw [hblock] at h
      cases h
      rw [hr₂] at hres hout hfeed
      refine ⟨by simpa using hres, ?_, by simpa using hfeed⟩
      rw [hout, ← Feed.chunk_append_left out r.feed, hchunk]
      exact Array.toList_inj.1 (by simp)

/-! ### Pulls -/

/-- What a pull does on a replay is what it does on the feed. -/
structure Feeds (p : Pull) (r : Replay) : Prop where
  reply : (Ranker.pull p r).1 = r.feed.reply p
  taken : Ranker.taken p r = r.feed.taken p
  feed : (Ranker.pull p r).2.feed = r.feed.advance p

theorem feeds (p : Pull) (r : Replay) : Feeds p r := by
  cases p with
  | one =>
    rcases pull_cases r with ⟨hunread, hlater, r₁, hfeed, -, hone, -⟩ |
      ⟨m, ms, r₁, -, hchunk, ⟨hone, hfeed, -⟩, -⟩
    · have hleft : r.feed.left = [] := by simp [Feed.left, hunread, hlater]
      have hnothing : Ranker.taken .one r = [] := by
        rw [Ranker.taken_one hone, Feed.close]
        cases r.feed.damage <;> rfl
      refine ⟨?_, ?_, ?_⟩
      · rw [Ranker.pull_one hone, Feed.reply, hleft]
      · rw [hnothing, Feed.taken, hleft]
        rfl
      · rw [Ranker.pull_one hone, Feed.advance_eq_self hunread hlater]
        exact hfeed
    · obtain ⟨rest, hleft⟩ := Feed.left_of_chunk hchunk
      refine ⟨?_, ?_, ?_⟩
      · rw [Ranker.pull_one hone, Feed.reply, hleft]
      · rw [Ranker.taken_one hone, Feed.taken, hleft]
        rfl
      · rw [Ranker.pull_one hone]
        exact hfeed
  | block held =>
    rcases pull_cases r with ⟨hunread, hlater, r₁, hfeed, -, -, hblock⟩ |
      ⟨m, ms, -, r₂, hchunk, -, hblock⟩
    · have hchunk : r.feed.chunk = [] := by rw [Feed.chunk, hunread, hlater]; rfl
      refine ⟨?_, ?_, ?_⟩
      · rw [Ranker.pull_block (hblock held), Feed.reply, hchunk]
      · have hnone : held ++ ([] : List Match) = held := by simp
        rw [Feed.taken, hchunk]
        exact Ranker.taken_block (by rw [hnone, hblock])
      · rw [Ranker.pull_block (hblock held), Feed.advance_eq_self hunread hlater]
        exact hfeed
    · obtain ⟨hblock, hfeed, -⟩ := hblock held
      refine ⟨?_, ?_, ?_⟩
      · rw [Ranker.pull_block hblock, Feed.reply, hchunk]
      · rw [Ranker.taken_block hblock, Feed.taken, hchunk]
      · rw [Ranker.pull_block hblock]
        exact hfeed
  | all =>
    obtain ⟨hres, hout, hfeed⟩ := drain_feed r #[]
    have hall : (#[] : Array Match) ++ r.feed.left = r.feed.left.toArray := by simp
    rw [hall] at hout
    refine ⟨?_, ?_, ?_⟩
    · rw [Feed.reply, Feed.close_eq_map (), ← hres, ← hout, Ranker.pull, Ranker.collect]
      rcases Ranker.drain r #[] with ⟨_ | _, out, r'⟩ <;> rfl
    · rw [Ranker.taken, hout, Feed.taken]
    · rw [← hfeed, Ranker.pull, Ranker.collect]
      rcases Ranker.drain r #[] with ⟨_ | _, out, r'⟩ <;> rfl

/-! ### What remains -/

theorem nextBlock_remaining (r : Replay) (out : Array Match) :
    (Ranker.nextBlock r out).2.2.remaining + (Ranker.nextBlock r out).2.1.size =
      r.remaining + out.size := by
  rcases pull_cases r with ⟨-, -, r₁, -, hremaining, -, hblock⟩ | ⟨m, ms, -, r₂, -, -, hblock⟩
  · rw [hblock, hremaining]
  · obtain ⟨hblock, -, hremaining⟩ := hblock out
    have hsize : (out ++ m :: ms).size = out.size + (ms.length + 1) := by
      simp [← Array.length_toList]
    rw [hblock]
    show r₂.remaining + (out ++ m :: ms).size = r.remaining + out.size
    omega

theorem drain_remaining (r : Replay) (out : Array Match) :
    (Ranker.drain r out).2.2.remaining + (Ranker.drain r out).2.1.size = r.remaining + out.size := by
  fun_induction Ranker.drain r out with
  | case1 r out e out' r' h => simpa [h] using nextBlock_remaining r out
  | case2 r out out' r' h => simpa [h] using nextBlock_remaining r out
  | case3 r out n out' r' h ih =>
    rw [ih]
    simpa [h] using nextBlock_remaining r out

/-- What is handed out comes off what remains. -/
theorem remaining_pull (p : Pull) (r : Replay) :
    (Ranker.pull p r).2.remaining + (Ranker.taken p r).length = r.remaining := by
  cases p with
  | one =>
    rcases pull_cases r with ⟨-, -, r₁, -, hremaining, hone, -⟩ |
      ⟨m, ms, r₁, -, -, ⟨hone, -, hremaining⟩, -⟩
    · rw [Ranker.pull_one hone, Ranker.taken_one hone, hremaining, Feed.close]
      cases r.feed.damage <;> rfl
    · rw [Ranker.pull_one hone, Ranker.taken_one hone]
      exact hremaining
  | block held =>
    have hsum := nextBlock_remaining r held
    rcases hb : Ranker.nextBlock r held with ⟨res, out', r'⟩
    obtain ⟨ms, rfl, -⟩ := LawfulRanker.block_append hb
    have hsize : (held ++ ms).size = held.size + ms.length := by simp [← Array.length_toList]
    rw [hb] at hsum
    rw [Ranker.taken_block hb, Ranker.pull_block hb]
    dsimp only at hsum ⊢
    omega
  | all =>
    have := drain_remaining r #[]
    rw [Ranker.taken, Array.length_toList, Ranker.pull, Ranker.collect]
    rcases hd : Ranker.drain r #[] with ⟨_ | _, out, r'⟩ <;> simpa [hd] using this

/-! ### Any sequence of pulls -/

theorem pullAll_at {frames : List (List Match)} (hfull : ∀ g ∈ frames, g ≠ []) (ps : List Pull) :
    ∀ {r : Replay} {handed : List Match}, r.feed.At frames handed →
      (Ranker.pullAll ps r).feed.At frames (handed ++ Ranker.takenAll ps r) ∧
      (Ranker.pullAll ps r).feed.damage = r.feed.damage ∧
      (Ranker.pullAll ps r).remaining + (Ranker.takenAll ps r).length = r.remaining := by
  induction ps with
  | nil =>
    intro r handed h
    refine ⟨?_, rfl, Nat.add_zero _⟩
    rwa [Ranker.takenAll, List.append_nil]
  | cons p ps ih =>
    intro r handed h
    have hp := feeds p r
    have hstep := h.advance hfull p
    rw [← hp.feed, ← hp.taken] at hstep
    obtain ⟨hat, hdamage, hremaining⟩ := ih hstep
    refine ⟨?_, ?_, ?_⟩
    · rwa [Ranker.takenAll, ← List.append_assoc]
    · rw [← Feed.advance_damage p r.feed, ← hp.feed]
      exact hdamage
    · have := remaining_pull p r
      rw [Ranker.takenAll, List.length_append]
      show (Ranker.pullAll ps (Ranker.pull p r).2).remaining + _ = _
      omega

theorem pullAll_feed (ps : List Pull) :
    ∀ r : Replay, (Ranker.pullAll ps r).feed = ps.foldl (fun f p => f.advance p) r.feed := by
  induction ps with
  | nil => exact fun _ => rfl
  | cons p ps ih =>
    intro r
    rw [List.foldl_cons, ← (feeds p r).feed]
    exact ih _

/-- An entry is replayed as its frames say, up to the first damage: whatever was asked before, the
matches handed out are a beginning of them and come off what remains. The next match is the one
behind; a block is what is left of a frame partly handed out, or else a whole frame; all that is
left comes at once, in no more blocks than there are frames. With everything handed out every pull
says so, or reports the damage that was met, and delivers nothing. -/
theorem pull_after_pulls (e : Entry) (ps : List Pull) (p : Pull) :
    let r := Ranker.pullAll ps (start e)
    let handed := Ranker.takenAll ps (start e)
    (∃ f : Feed, f.At e.stream.frames.1 handed ∧ handed ++ f.left = e.stream.frames.1.flatten ∧
      f.damage = e.stream.frames.2 ∧ (Ranker.pull p r).1 = f.reply p ∧ Ranker.taken p r = f.taken p) ∧
    (Ranker.pull p r).1.Shows p (Ranker.taken p r) ∧
    r.remaining + handed.length = e.stream.total ∧
    (handed = e.stream.frames.1.flatten → Ranker.taken p r = [] ∧ (Ranker.pull p r).1.signal =
      match e.stream.frames.2 with
      | none => .ended
      | some d => .failed (.corrupt d)) ∧
    ∃ blocks ≤ e.stream.frames.1.length, ∀ held,
      (Ranker.pull (.block held) (Ranker.pullAll (List.replicate blocks (.block held)) r)).1.signal ≠
        .more := by
  intro r handed
  have hfull : ∀ g ∈ e.stream.frames.1, g ≠ [] := fun g hg => Reader.ne_nil_of_mem_frames hg
  have hstart : (start e).feed.At e.stream.frames.1 [] := ⟨[], rfl, rfl, fun h => absurd rfl h⟩
  obtain ⟨hat, hdamage, hremaining⟩ := pullAll_at hfull ps hstart
  rw [List.nil_append] at hat
  have hp := feeds p r
  have hleft := hat.append_left
  refine ⟨⟨r.feed, hat, hleft, hdamage, hp.reply, hp.taken⟩, Ranker.pull_shows p r, hremaining,
    fun hall => ?_, r.feed.blocks, hat.blocks_le, fun held => ?_⟩
  · have hend : r.feed.left = [] := by
      rw [← hall] at hleft
      exact List.append_right_eq_self.1 hleft
    have hdamage : r.feed.damage = e.stream.frames.2 := hdamage
    obtain ⟨htaken, hsignal⟩ := Feed.reply_end hend p
    rw [hp.taken, hp.reply, hsignal, hdamage]
    exact ⟨htaken, rfl⟩
  · have hend : (Ranker.pullAll (List.replicate r.feed.blocks (.block held)) r).feed.left = [] := by
      rw [pullAll_feed]
      exact Feed.blocks_run_out held _ rfl
    rw [(feeds _ _).reply, (Feed.reply_end hend _).2]
    split <;> simp

end Replay

end ResultCache
