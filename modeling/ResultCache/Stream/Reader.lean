/-
Unpacking matches, one frame at a time. A reader keeps no bytes of its own: they are passed to
every call together with the weight table. Whatever does not fit the frame layout, the weight
table or the expected number of matches is reported as `Damage`, and then neither the reader nor
the matches gathered so far change. `Stream.unpack` reads a whole stream.
-/
import ResultCache.Stream.Cursor
import ResultCache.Stream.Writer

namespace ResultCache

/-- How far a stream has been read. -/
structure Reader where
  position : Nat := 0
  /-- The document of the last match read. -/
  lastDoc : UInt64 := 0
  /-- How many matches are still expected. -/
  remaining : Nat
  deriving DecidableEq, Repr, Inhabited

namespace Reader

/-- The start of a stream of `total` matches. -/
def start (total : Nat) : Reader := { remaining := total }

/-- The next `n` matches of a frame, the document `doc` standing before them. -/
def readMatches (weights : Array UInt32) :
    Nat → UInt64 → Cursor → Except Damage (List Match × UInt64 × Cursor)
  | 0, doc, c => .ok ([], doc, c)
  | n + 1, doc, c => do
    let (step, c) ← c.next .word64
    let (slot, c) ← c.next .word32
    match weights[slot.toNat]? with
    | none => .error (.weightIndex slot.toNat weights.size)
    | some weight =>
      let doc := doc + (Zigzag.decode step).toUInt64
      let (ms, last, c) ← readMatches weights n doc c
      .ok (⟨doc, weight⟩ :: ms, last, c)

/-- The next frame and the reader behind it; no matches once everything is read. -/
def frame (bytes : Array UInt8) (weights : Array UInt32) (r : Reader) :
    Except Damage (List Match × Reader) :=
  if bytes.size ≤ r.position then
    if r.remaining = 0 then .ok ([], r) else .error (.missingMatches r.remaining)
  else if r.remaining = 0 then .error (.trailingBytes (bytes.size - r.position))
  else do
    let (count, c) ← (Cursor.mk bytes r.position).next .word32
    let n := count.toNat
    -- the count is checked before any match is read
    if n = 0 ∨ frameCapacity < n ∨ r.remaining < n then
      .error (.frameCount n r.remaining)
    else
      let (ms, last, c) ← readMatches weights n r.lastDoc c
      .ok (ms, { position := c.position, lastDoc := last, remaining := r.remaining - n })

/-- Reads the next frame onto `out` and tells how many matches came; on failure reader and `out`
stay as they are. -/
def readInto (bytes : Array UInt8) (weights : Array UInt32) (r : Reader) (out : Array Match) :
    Except Damage Nat × Reader × Array Match :=
  match r.frame bytes weights with
  | .ok (ms, r') => (.ok ms.length, r', out ++ ms)
  | .error e => (.error e, r, out)

/-! ## Progress -/

theorem readMatches_length {weights : Array UInt32} {n : Nat} {doc : UInt64} {c : Cursor}
    {ms : List Match} {last : UInt64} {c' : Cursor}
    (h : readMatches weights n doc c = .ok (ms, last, c')) : ms.length = n := by
  induction n generalizing doc c ms last c' with
  | zero => cases h; rfl
  | succ n ih =>
    rw [readMatches] at h
    obtain ⟨⟨step, c₁⟩, _, h⟩ := bind_eq_ok.1 h
    obtain ⟨⟨slot, c₂⟩, _, h⟩ := bind_eq_ok.1 h
    dsimp only at h
    split at h
    · cases h
    · obtain ⟨⟨rest, last', c₃⟩, hr, h⟩ := bind_eq_ok.1 h
      cases h
      rw [List.length_cons, ih hr]

/-- A frame takes its matches off the number still expected. -/
theorem frame_remaining {bytes : Array UInt8} {weights : Array UInt32} {r r' : Reader}
    {ms : List Match} (h : r.frame bytes weights = .ok (ms, r')) :
    r'.remaining + ms.length = r.remaining := by
  unfold frame at h
  by_cases hend : bytes.size ≤ r.position
  · by_cases hdone : r.remaining = 0
    · rw [if_pos hend, if_pos hdone] at h
      cases h
      rfl
    · rw [if_pos hend, if_neg hdone] at h
      cases h
  · by_cases hdone : r.remaining = 0
    · rw [if_neg hend, if_pos hdone] at h
      cases h
    · rw [if_neg hend, if_neg hdone] at h
      obtain ⟨⟨count, c⟩, _, h⟩ := bind_eq_ok.1 h
      dsimp only at h
      split at h
      · cases h
      · -- the count read is no more than what is expected
        rename_i hn
        obtain ⟨⟨ms', last, c'⟩, hr, h⟩ := bind_eq_ok.1 h
        cases h
        rw [readMatches_length hr]
        show r.remaining - count.toNat + count.toNat = r.remaining
        omega

/-! ## Whole streams -/

/-- Reads frames onto `out` until none is left. -/
def readAll (bytes : Array UInt8) (weights : Array UInt32) (r : Reader) (out : Array Match) :
    Except Damage (Array Match) :=
  match _h : r.frame bytes weights with
  | .error e => .error e
  | .ok ([], _) => .ok out
  | .ok (m :: ms, r') => readAll bytes weights r' (out ++ (m :: ms))
termination_by r.remaining
decreasing_by have := frame_remaining _h; simp only [List.length_cons] at this; omega

end Reader

/-- All matches of a stream. -/
def Stream.unpack (s : Stream) : Except Damage (Array Match) :=
  (Reader.start s.total).readAll s.bytes s.weights #[]

end ResultCache
