/-
Streams of the wrong length. Reading a stream looks at nothing behind the frame at hand, so two
streams of which one goes on where the other stops (`Stream.Exceeds`) have the same frames as far as
the shorter one goes. A stream that is read to its end uses up its bytes and its matches together,
so whatever goes on behind it is damaged there: cut off, extended or announced with another number
of matches, it is refused, and what is read of it before that is right (`Stream.wrong_length`).
-/
import ResultCache.Proofs.Ranker.Replaying
import ResultCache.Proofs.Stream.Reading

namespace ResultCache

namespace Reader

variable {bytes bytes' : Array UInt8} {weights : Array UInt32} {r r' : Reader}

/-! ## Reading further -/

/-- A reader with more bytes and more matches before it reads the same frame. -/
theorem frame_further {m : Match} {ms : List Match} {r₁ : Reader}
    (h : r.frame bytes weights = .ok (m :: ms, r₁)) {more : List UInt8}
    (hrest : r'.rest bytes' = r.rest bytes ++ more) {extra : Nat}
    (hremaining : r'.remaining = r.remaining + extra) (hdoc : r'.lastDoc = r.lastDoc) :
    ∃ r₁', r'.frame bytes' weights = .ok (m :: ms, r₁') ∧
      r₁'.rest bytes' = r₁.rest bytes ++ more ∧ r₁'.remaining = r₁.remaining + extra ∧
      r₁'.lastDoc = r₁.lastDoc := by
  obtain ⟨bs, cells, hframed, hlen, hsplit, hms, rfl⟩ := frame_sound h
  have hrest' : r'.rest bytes' = bs ++ ((r.past bs.length cells).rest bytes ++ more) := by
    rw [hrest, hsplit, List.append_assoc]
  have hframe := frame_complete hframed hrest' (by omega)
  rw [hdoc, ← hms] at hframe
  refine ⟨_, hframe, rest_past hrest', ?_, ?_⟩
  · simp only [past]
    omega
  · simp only [past, hdoc]

/-- With less before it, a reader reads the first of the same frames. -/
theorem frames_prefix {more : List UInt8} {extra : Nat} :
    ∀ {r r' : Reader}, r'.rest bytes' = r.rest bytes ++ more →
      r'.remaining = r.remaining + extra → r'.lastDoc = r.lastDoc →
      (r.frames bytes weights).1 <+: (r'.frames bytes' weights).1 := by
  intro r
  fun_induction frames bytes weights r with
  | case1 r d h => exact fun _ _ _ => List.nil_prefix
  | case2 r r₁ h => exact fun _ _ _ => List.nil_prefix
  | case3 r m ms r₁ h ih =>
    intro r' hrest hremaining hdoc
    obtain ⟨r₁', hframe, hrest₁, hremaining₁, hdoc₁⟩ := frame_further h hrest hremaining hdoc
    rw [frames_next hframe]
    exact List.cons_prefix_cons.2 ⟨rfl, ih hrest₁ hremaining₁ hdoc₁⟩

/-- Behind a stream that is read to its end, what is added to it is read on its own. -/
theorem frames_behind {more : List UInt8} {extra : Nat} :
    ∀ {r r' : Reader}, (r.frames bytes weights).2 = none →
      r'.rest bytes' = r.rest bytes ++ more → r'.remaining = r.remaining + extra →
      r'.lastDoc = r.lastDoc →
      ∃ r₁ : Reader, r₁.rest bytes' = more ∧ r₁.remaining = extra ∧ r'.frames bytes' weights =
        ((r.frames bytes weights).1 ++ (r₁.frames bytes' weights).1, (r₁.frames bytes' weights).2) := by
  intro r
  fun_induction frames bytes weights r with
  | case1 r d h =>
    intro r' hsound
    cases hsound
  | case2 r r₁ h =>
    intro r' _ hrest hremaining hdoc
    obtain ⟨hend, hdone⟩ := frame_done h
    refine ⟨r', ?_, ?_, rfl⟩
    · rw [hrest, hend, List.nil_append]
    · rw [hremaining, hdone, Nat.zero_add]
  | case3 r m ms r₁ h ih =>
    intro r' hsound hrest hremaining hdoc
    obtain ⟨r₁', hframe, hrest₁, hremaining₁, hdoc₁⟩ := frame_further h hrest hremaining hdoc
    obtain ⟨r₂, hrest₂, hremaining₂, hframes⟩ := ih hsound hrest₁ hremaining₁ hdoc₁
    refine ⟨r₂, hrest₂, hremaining₂, ?_⟩
    rw [frames_next hframe, hframes]
    rfl

/-- Bytes without matches are damage, and so are matches without bytes. -/
theorem frames_uneven (h : ¬ (r.rest bytes = [] ↔ r.remaining = 0)) :
    ∃ d, r.frames bytes weights = ([], some d) := by
  rw [rest_eq_nil_iff] at h
  by_cases hend : bytes.size ≤ r.position
  · have hmissing : ¬ r.remaining = 0 := fun hdone => h ⟨fun _ => hdone, fun _ => hend⟩
    refine ⟨_, frames_error (d := .missingMatches r.remaining) ?_⟩
    rw [frame, if_pos hend, if_neg hmissing]
  · have hdone : r.remaining = 0 := by
      by_contra hmissing
      exact h ⟨fun h => absurd h hend, fun h => absurd h hmissing⟩
    refine ⟨_, frames_error (d := .trailingBytes (bytes.size - r.position)) ?_⟩
    rw [frame, if_neg hend, if_pos hdone]

/-! ## Reading onto a list -/

/-- The list after reading `n` times onto it, whatever each time came to. -/
def readTimes (bytes : Array UInt8) (weights : Array UInt32) :
    Nat → Reader → Array Match → Array Match
  | 0, _, out => out
  | n + 1, r, out =>
    readTimes bytes weights n (r.readInto bytes weights out).2.1 (r.readInto bytes weights out).2.2

/-- Every time puts one frame onto the list, as long as there are any. -/
theorem readTimes_eq (n : Nat) : ∀ (r : Reader) (out : Array Match),
    readTimes bytes weights n r out = out ++ ((r.frames bytes weights).1.take n).flatten := by
  induction n with
  | zero =>
    intro r out
    simp [readTimes]
  | succ n ih =>
    intro r out
    rw [readTimes, ih]
    rcases hf : r.frame bytes weights with d | ⟨_ | ⟨m, ms⟩, r'⟩
    · simp [readInto, hf, frames_error hf]
    · obtain rfl := frame_stays hf
      simp [readInto, hf, frames_done hf]
    · rw [readInto, hf, frames_next hf]
      exact Array.toList_inj.1 (by simp)

end Reader

/-! ## Longer and shorter streams -/

namespace Stream

/-- `s'` goes on where `s` ends: with more bytes, or with more matches announced. -/
inductive Exceeds (s : Stream) : Stream → Prop where
  | bytes (more : Array UInt8) : more ≠ #[] → Exceeds s { s with bytes := s.bytes ++ more }
  | total (extra : Nat) : extra ≠ 0 → Exceeds s { s with total := s.total + extra }

variable {s s' : Stream}

/-- What an exceeding stream adds is either bytes or matches. -/
theorem Exceeds.split (h : s.Exceeds s') :
    ∃ more extra,
      (Reader.start s'.total).rest s'.bytes = (Reader.start s.total).rest s.bytes ++ more ∧
      s'.total = s.total + extra ∧ s'.weights = s.weights ∧ ¬ (more = [] ↔ extra = 0) := by
  cases h with
  | bytes more hmore =>
    refine ⟨more.toList, 0, Array.toList_append, rfl, rfl, ?_⟩
    simpa using hmore
  | total extra hextra =>
    refine ⟨[], extra, (List.append_nil _).symm, rfl, rfl, ?_⟩
    simpa using hextra

theorem Exceeds.frames_prefix (h : s.Exceeds s') : s.frames.1 <+: s'.frames.1 := by
  obtain ⟨more, extra, hrest, htotal, hweights, -⟩ := h.split
  unfold frames
  rw [hweights]
  exact Reader.frames_prefix hrest htotal rfl

/-- Whatever goes on behind a sound stream is damaged right there. -/
theorem Exceeds.frames_eq (h : s.Exceeds s') (hsound : s.frames.2 = none) :
    ∃ d, s'.frames = (s.frames.1, some d) := by
  obtain ⟨more, extra, hrest, htotal, hweights, huneven⟩ := h.split
  unfold frames at hsound ⊢
  rw [hweights]
  obtain ⟨r, hmore, hextra, hframes⟩ := Reader.frames_behind hsound hrest htotal rfl
  have hbehind : ¬ (r.rest s'.bytes = [] ↔ r.remaining = 0) := by rwa [hmore, hextra]
  obtain ⟨d, hd⟩ : ∃ d, r.frames s'.bytes s.weights = ([], some d) := Reader.frames_uneven hbehind
  exact ⟨d, by rw [hframes, hd, List.append_nil]⟩

/-- Of a stream of another length than a sound one, the first frames of that one are read, and then
there is a damage. -/
theorem frames_of_wrong_length {ms : Array Match} (h : s.unpack = .ok ms)
    (hs : s.Exceeds s' ∨ s'.Exceeds s) :
    ∃ d, s'.frames.2 = some d ∧ s'.frames.1.flatten <+: ms.toList := by
  obtain ⟨hsound, hall⟩ := unpack_eq_ok_iff_frames.1 h
  rw [← hall]
  rcases hs with hmore | hless
  · obtain ⟨d, hd⟩ := hmore.frames_eq hsound
    rw [hd]
    exact ⟨d, rfl, List.prefix_rfl⟩
  · cases hdamage : s'.frames.2 with
    | none =>
      -- a sound stream does not go on behind another sound one
      obtain ⟨d, hd⟩ := hless.frames_eq hdamage
      rw [hd] at hsound
      cases hsound
    | some d =>
      obtain ⟨later, hlater⟩ := hless.frames_prefix
      refine ⟨d, rfl, later.flatten, ?_⟩
      rw [← hlater, List.flatten_append]

theorem unpack_eq_error {d : Damage} (h : s.frames.2 = some d) : s.unpack = .error d := by
  unfold frames at h
  rw [unpack, Reader.readAll_eq]
  rcases hf : (Reader.start s.total).frames s.bytes s.weights with ⟨frames, damage⟩
  rw [hf] at h
  cases h
  rfl

end Stream

/-! ## Replays -/

/-- With a damage at its end, a feed never says that it is complete. -/
theorem Feed.reply_signal_damaged {f : Feed} {d : Damage} (h : f.damage = some d) (p : Pull) :
    (f.reply p).signal = .more ∨ (f.reply p).signal = .failed (.corrupt d) := by
  cases p with
  | one => cases hleft : f.left <;> simp [reply, hleft, close, h, Reply.signal]
  | block held => cases hchunk : f.chunk <;> simp [reply, hchunk, close, h, Reply.signal]
  | all => simp [reply, close, h, Reply.signal]

/-- The replay of a damaged entry hands out beginnings of its frames and fails with the damage. -/
theorem Replay.pull_damaged {e : Entry} {d : Damage} (h : e.stream.frames.2 = some d)
    (ps : List Pull) (p : Pull) :
    Ranker.takenAll ps (start e) <+: e.stream.frames.1.flatten ∧
      ((Ranker.pull p (Ranker.pullAll ps (start e))).1.signal = .more ∨
        (Ranker.pull p (Ranker.pullAll ps (start e))).1.signal = .failed (.corrupt d)) := by
  have hstart : (start e).feed.At e.stream.frames.1 [] := ⟨[], rfl, rfl, fun h => absurd rfl h⟩
  obtain ⟨hat, hdamage, -⟩ := pullAll_at (fun g hg => Reader.ne_nil_of_mem_frames hg) ps hstart
  rw [List.nil_append] at hat
  refine ⟨⟨_, hat.append_left⟩, ?_⟩
  rw [(feeds p _).reply]
  exact Feed.reply_signal_damaged (hdamage.trans h) p

/-! ## Detection -/

namespace Stream

/-- Let a stream be read as `ms`. With bytes missing at its end or added behind it, or with another
number of matches announced, it is refused with a damage that the reader found itself; what is read
onto a list before that, as often as one likes, and what a replay hands out, whatever is asked of
it, is a beginning of `ms`, and the replay ends with that damage. -/
theorem wrong_length {s s' : Stream} {ms : Array Match} (h : s.unpack = .ok ms)
    (hs : s.Exceeds s' ∨ s'.Exceeds s) :
    ∃ d, s'.unpack = .error d ∧ (∀ text, d ≠ .noted text) ∧
      (∀ n, (Reader.readTimes s'.bytes s'.weights n (Reader.start s'.total) #[]).toList <+:
        ms.toList) ∧
      ∀ e : Entry, e.stream = s' → ∀ (ps : List Pull) (p : Pull),
        Ranker.takenAll ps (Replay.start e) <+: ms.toList ∧
        ((Ranker.pull p (Ranker.pullAll ps (Replay.start e))).1.signal = .more ∨
          (Ranker.pull p (Ranker.pullAll ps (Replay.start e))).1.signal = .failed (.corrupt d)) := by
  obtain ⟨d, hdamage, hbefore⟩ := frames_of_wrong_length h hs
  have hrefused := unpack_eq_error hdamage
  refine ⟨d, hrefused, Reader.readAll_error hrefused, fun n => ?_, ?_⟩
  · have hread : (Reader.readTimes s'.bytes s'.weights n (Reader.start s'.total) #[]).toList =
        (s'.frames.1.take n).flatten := by
      rw [Reader.readTimes_eq]
      simp [frames]
    rw [hread]
    refine List.IsPrefix.trans ⟨(s'.frames.1.drop n).flatten, ?_⟩ hbefore
    rw [← List.flatten_append, List.take_append_drop]
  · rintro e rfl ps p
    obtain ⟨htaken, hsignal⟩ := Replay.pull_damaged hdamage ps p
    exact ⟨htaken.trans hbefore, hsignal⟩

/-- Cut off behind the first of its two frames, a stream misses a match. -/
theorem wrong_length_cut :
    let s : Stream := { bytes := #[1, 200, 1, 0, 1, 99, 0], weights := #[5], total := 2 }
    let s' : Stream := { bytes := #[1, 200, 1, 0], weights := #[5], total := 2 }
    s.unpack = .ok #[⟨100, 5⟩, ⟨50, 5⟩] ∧ s'.Exceeds s ∧ s'.unpack = .error (.missingMatches 1) ∧
      ∀ ps, Ranker.takenAll ps (Replay.start ⟨1, 0, 0, [], 0, s'⟩) <+: [⟨100, 5⟩, ⟨50, 5⟩] := by
  intro s s'
  have hs : s.unpack = .ok #[⟨100, 5⟩, ⟨50, 5⟩] := by cbv
  have hexceeds : s'.Exceeds s := .bytes #[1, 99, 0] (by decide)
  obtain ⟨d, -, -, -, hreplay⟩ := wrong_length hs (.inr hexceeds)
  exact ⟨hs, hexceeds, by cbv, fun ps => (hreplay ⟨1, 0, 0, [], 0, s'⟩ rfl ps .one).1⟩

end Stream

end ResultCache
