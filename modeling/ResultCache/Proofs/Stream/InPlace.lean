/-
Reading a frame onto a list, in place: match by match, and what a damaged frame has left there is
cut off again (`Reader.readInPlace`). This is the same as reading the frame first, so a frame comes
whole or not at all; it takes up at least so many bytes as it must, and only these bytes matter.
-/
import ResultCache.Proofs.Stream.Reading

namespace ResultCache

open Varint

/-! ## The least length of a frame -/

theorem Consecutive.two_mul_length_le {size : Nat} {bs : List UInt8} {cells : List Cell}
    (h : Consecutive (Cell.Spelled size) bs cells) : 2 * cells.length ≤ bs.length := by
  induction h with
  | nil => exact Nat.le_refl 0
  | cons hcell _ ih =>
    obtain ⟨hstep, hslot, -⟩ := hcell
    have hstep := hstep.numeral.length_pos
    have hslot := hslot.numeral.length_pos
    simp only [List.length_append, List.length_cons]
    omega

theorem Framed.length_le {size : Nat} {bs : List UInt8} {cells : List Cell}
    (h : Framed size bs cells) : 1 + 2 * cells.length ≤ bs.length := by
  obtain ⟨hs, -, -, -, hcells⟩ := h
  have hcount := hs.numeral.length_pos
  have hmatches := hcells.two_mul_length_le
  rw [List.length_append]
  omega

namespace Reader

variable {bytes bytes' : Array UInt8} {weights : Array UInt32} {r r' : Reader}
  {out out' : Array Match}

/-! ## Match by match -/

/-- Reads the next `n` matches of a frame onto `out` one by one. Those before a damage stay there.
-/
def pushMatches (weights : Array UInt32) :
    Nat → UInt64 → Cursor → Array Match → Except Damage (UInt64 × Cursor) × Array Match
  | 0, doc, c, out => (.ok (doc, c), out)
  | n + 1, doc, c, out =>
    match c.next .word64 with
    | .error d => (.error d, out)
    | .ok (step, c) =>
      match c.next .word32 with
      | .error d => (.error d, out)
      | .ok (slot, c) =>
        match weights[slot.toNat]? with
        | none => (.error (.weightIndex slot.toNat weights.size), out)
        | some weight =>
          let doc := doc + (Zigzag.decode step).toUInt64
          pushMatches weights n doc c (out.push ⟨doc, weight⟩)

/-- Reads the next frame onto `out` match by match, and cuts `out` back if the frame is damaged. -/
def readInPlace (bytes : Array UInt8) (weights : Array UInt32) (r : Reader) (out : Array Match) :
    Except Damage Nat × Reader × Array Match :=
  if bytes.size ≤ r.position then
    if r.remaining = 0 then (.ok 0, r, out) else (.error (.missingMatches r.remaining), r, out)
  else if r.remaining = 0 then (.error (.trailingBytes (bytes.size - r.position)), r, out)
  else
    match (Cursor.mk bytes r.position).next .word32 with
    | .error d => (.error d, r, out)
    | .ok (count, c) =>
      let n := count.toNat
      if n = 0 ∨ frameCapacity < n ∨ r.remaining < n then
        (.error (.frameCount n r.remaining), r, out)
      else
        match pushMatches weights n r.lastDoc c out with
        | (.error d, out') => (.error d, r, out'.take out.size)
        | (.ok (last, c), out') =>
          (.ok n, { position := c.position, lastDoc := last, remaining := r.remaining - n }, out')

theorem pushMatches_ok {n : Nat} : ∀ {doc last : UInt64} {c c' : Cursor} {ms : List Match}
    (out : Array Match), readMatches weights n doc c = .ok (ms, last, c') →
    pushMatches weights n doc c out = (.ok (last, c'), out ++ ms) := by
  induction n with
  | zero =>
    intro doc last c c' ms out h
    cases h
    rw [pushMatches, Array.appendList_nil]
  | succ n ih =>
    intro doc last c c' ms out h
    rw [readMatches] at h
    obtain ⟨⟨step, c₁⟩, hstep, h⟩ := bind_eq_ok.1 h
    obtain ⟨⟨slot, c₂⟩, hslot, h⟩ := bind_eq_ok.1 h
    dsimp only at h
    split at h
    · cases h
    · rename_i weight hweight
      obtain ⟨⟨ms', last', c₃⟩, hms, h⟩ := bind_eq_ok.1 h
      cases h
      rw [pushMatches, hstep]
      dsimp only
      rw [hslot]
      dsimp only
      rw [hweight]
      dsimp only
      rw [ih _ hms]
      refine Prod.ext rfl (Array.toList_inj.1 ?_)
      simp

/-- Up to a damage only matches are added. -/
theorem pushMatches_error {n : Nat} {d : Damage} : ∀ {doc : UInt64} {c : Cursor}
    (out : Array Match), readMatches weights n doc c = .error d →
    ∃ ms : List Match, pushMatches weights n doc c out = (.error d, out ++ ms) := by
  induction n with
  | zero => intro doc c out h; cases h
  | succ n ih =>
    intro doc c out h
    rw [readMatches] at h
    rw [pushMatches]
    rcases bind_eq_error.1 h with hstep | ⟨⟨step, c₁⟩, hstep, h⟩
    · rw [hstep]
      exact ⟨[], by simp⟩
    rw [hstep]
    dsimp only
    rcases bind_eq_error.1 h with hslot | ⟨⟨slot, c₂⟩, hslot, h⟩
    · rw [hslot]
      exact ⟨[], by simp⟩
    rw [hslot]
    dsimp only at h ⊢
    cases hweight : weights[slot.toNat]? with
    | none =>
      rw [hweight] at h
      cases h
      exact ⟨[], by simp⟩
    | some weight =>
      rw [hweight] at h
      rcases bind_eq_error.1 h with hms | ⟨p, -, h⟩
      · -- the match just read stands before whatever was read behind it
        let m : Match := ⟨doc + (Zigzag.decode step).toUInt64, weight⟩
        obtain ⟨ms, hpush⟩ := ih (out.push m) hms
        refine ⟨m :: ms, ?_⟩
        dsimp only
        rw [hpush]
        refine Prod.ext rfl (Array.toList_inj.1 ?_)
        simp
      · cases h

theorem take_size_append (out : Array Match) (ms : List Match) : (out ++ ms).take out.size = out := by
  apply Array.toList_inj.1
  rw [Array.take_eq_extract, Array.toList_extract]
  simp

theorem readInPlace_eq (bytes : Array UInt8) (weights : Array UInt32) (r : Reader)
    (out : Array Match) : r.readInPlace bytes weights out = r.readInto bytes weights out := by
  unfold readInPlace readInto frame
  by_cases hend : bytes.size ≤ r.position
  · rw [if_pos hend, if_pos hend]
    by_cases hdone : r.remaining = 0
    · rw [if_pos hdone, if_pos hdone]
      simp
    · rw [if_neg hdone, if_neg hdone]
  rw [if_neg hend, if_neg hend]
  by_cases hdone : r.remaining = 0
  · rw [if_pos hdone, if_pos hdone]
  rw [if_neg hdone, if_neg hdone]
  rcases (Cursor.mk bytes r.position).next .word32 with d | ⟨count, c⟩
  · rfl
  dsimp only [bind, Except.bind]
  by_cases hrange : count.toNat = 0 ∨ frameCapacity < count.toNat ∨ r.remaining < count.toNat
  · rw [if_pos hrange, if_pos hrange]
  rw [if_neg hrange, if_neg hrange]
  rcases hms : readMatches weights count.toNat r.lastDoc c with d | ⟨ms, last, c'⟩
  · obtain ⟨ms, hpush⟩ := pushMatches_error out hms
    rw [hpush]
    dsimp only
    rw [take_size_append]
  · rw [pushMatches_ok out hms]
    dsimp only
    rw [readMatches_length hms]

/-! ## What a call does -/

theorem readInto_error {d : Damage} (h : r.readInto bytes weights out = (.error d, r', out')) :
    r.frame bytes weights = .error d ∧ r' = r ∧ out' = out := by
  unfold readInto at h
  rcases hf : r.frame bytes weights with d' | ⟨ms, r₁⟩
  · rw [hf] at h
    cases h
    exact ⟨rfl, rfl, rfl⟩
  · rw [hf] at h
    cases h

theorem readInto_ok {n : Nat} (h : r.readInto bytes weights out = (.ok n, r', out')) :
    ∃ ms : List Match, r.frame bytes weights = .ok (ms, r') ∧ ms.length = n ∧ out' = out ++ ms := by
  unfold readInto at h
  rcases hf : r.frame bytes weights with d | ⟨ms, r₁⟩
  · rw [hf] at h
    cases h
  · rw [hf] at h
    cases h
    exact ⟨ms, rfl, rfl, rfl⟩

theorem readInto_zero_iff : r.readInto bytes weights out = (.ok 0, r', out') ↔
    bytes.size ≤ r.position ∧ r.remaining = 0 ∧ r' = r ∧ out' = out := by
  constructor
  · intro h
    obtain ⟨ms, hf, hlen, rfl⟩ := readInto_ok h
    obtain rfl := List.eq_nil_of_length_eq_zero hlen
    obtain ⟨hend, hdone⟩ := frame_done hf
    have hend := rest_eq_nil_iff.1 hend
    rw [frame, if_pos hend, if_pos hdone] at hf
    cases hf
    exact ⟨hend, hdone, rfl, Array.appendList_nil⟩
  · rintro ⟨hend, hdone, rfl, rfl⟩
    rw [readInto, frame, if_pos hend, if_pos hdone]
    dsimp only
    rw [Array.appendList_nil]
    rfl

/-- The bytes of a frame are before any reader at the same position that has them there. -/
theorem rest_eq_append_of_same {bs behind : List UInt8} (h : r.rest bytes = bs ++ behind)
    (hsame : ∀ i, r.position ≤ i → i < r.position + bs.length → bytes'[i]? = bytes[i]?) :
    ∃ behind', r.rest bytes' = bs ++ behind' := by
  have htake : (r.rest bytes').take bs.length = bs := by
    have hbs : (r.rest bytes).take bs.length = bs := by rw [h, List.take_left]
    refine Eq.trans (List.ext_getElem? fun i => ?_) hbs
    rw [List.getElem?_take, List.getElem?_take]
    by_cases hi : i < bs.length
    · rw [if_pos hi, if_pos hi, rest, rest, List.getElem?_drop, List.getElem?_drop,
        Array.getElem?_toList, Array.getElem?_toList]
      exact hsame _ (by omega) (by omega)
    · rw [if_neg hi, if_neg hi]
  refine ⟨(r.rest bytes').drop bs.length, ?_⟩
  conv_lhs => rw [← List.take_append_drop bs.length (r.rest bytes'), htake]

/-- A frame stands within the bytes, takes up one byte and two more for every match at least, and is
read alike wherever the same bytes stand in its place. -/
theorem frame_extent {m : Match} {ms : List Match}
    (h : r.frame bytes weights = .ok (m :: ms, r')) :
    (m :: ms).length ≤ frameCapacity ∧ r.position + 1 + 2 * (m :: ms).length ≤ r'.position ∧
      r'.position ≤ bytes.size ∧
      ∀ bytes' : Array UInt8, (∀ i, r.position ≤ i → i < r'.position → bytes'[i]? = bytes[i]?) →
        r.frame bytes' weights = .ok (m :: ms, r') := by
  obtain ⟨bs, cells, hframed, hlen, hrest, hms, rfl⟩ := frame_sound h
  have hcount : (m :: ms).length = cells.length := by rw [hms, matchesFrom_length]
  have hleast := hframed.length_le
  have hwithin : r.position + bs.length ≤ bytes.size := by
    have hsize := congrArg List.length hrest
    rw [rest, List.length_drop, Array.length_toList, List.length_append] at hsize
    omega
  have hcapacity : cells.length ≤ frameCapacity := by
    obtain ⟨-, -, -, hcap, -⟩ := hframed
    exact hcap
  rw [hcount]
  refine ⟨hcapacity, ?_, hwithin, fun bytes' hsame => ?_⟩
  · show _ ≤ r.position + bs.length
    omega
  · obtain ⟨rest', hrest'⟩ := rest_eq_append_of_same hrest hsame
    rw [frame_complete hframed hrest' hlen, ← hms]

/-- Reading a frame onto `out` match by match, with `out` cut back at a damage, is reading it at
once. A call that fails has found the damage itself and leaves reader and `out` as they were. A call
that reads nothing stands at the end of a complete stream, and changes nothing either; every other
call puts one frame behind `out`: no more matches than fit in or are expected, which come off those
expected, from at least one byte and two more for each match, all of them there. Nothing before
these bytes or behind them matters. -/
theorem readInto_all_or_nothing (bytes : Array UInt8) (weights : Array UInt32) (r : Reader)
    (out : Array Match) :
    r.readInPlace bytes weights out = r.readInto bytes weights out ∧
    (∀ d r' out', r.readInto bytes weights out = (.error d, r', out') →
      r' = r ∧ out' = out ∧ ∀ text, d ≠ .noted text) ∧
    (∀ r' out', r.readInto bytes weights out = (.ok 0, r', out') ↔
      bytes.size ≤ r.position ∧ r.remaining = 0 ∧ r' = r ∧ out' = out) ∧
    ∀ n r' out', r.readInto bytes weights out = (.ok (n + 1), r', out') →
      n + 1 ≤ frameCapacity ∧ n + 1 ≤ r.remaining ∧
      (∃ ms : List Match, ms.length = n + 1 ∧ out' = out ++ ms) ∧
      r'.remaining = r.remaining - (n + 1) ∧
      r.position + 1 + 2 * (n + 1) ≤ r'.position ∧ r'.position ≤ bytes.size ∧
      ∀ bytes' : Array UInt8, (∀ i, r.position ≤ i → i < r'.position → bytes'[i]? = bytes[i]?) →
        r.readInto bytes' weights out = (.ok (n + 1), r', out') := by
  refine ⟨readInPlace_eq bytes weights r out, fun d r' out' h => ?_, fun r' out' => readInto_zero_iff,
    fun n r' out' h => ?_⟩
  · obtain ⟨hf, hreader, hout⟩ := readInto_error h
    exact ⟨hreader, hout, frame_error hf⟩
  · obtain ⟨ms, hf, hlen, rfl⟩ := readInto_ok h
    obtain ⟨m, ms, rfl⟩ := List.exists_cons_of_length_eq_add_one hlen
    obtain ⟨hcapacity, hleast, hwithin, hlocal⟩ := frame_extent hf
    have hremaining := frame_remaining hf
    rw [hlen] at hcapacity hleast hremaining
    refine ⟨hcapacity, by omega, ⟨m :: ms, hlen, rfl⟩, by omega, hleast, hwithin, ?_⟩
    intro bytes' hsame
    rw [readInto, hlocal bytes' hsame]
    dsimp only
    rw [hlen]

/-- The first match was read already when the second one turned out to have no weight. -/
example : (start 2).readInPlace #[2, 20, 0, 20, 1] #[1] #[⟨1, 1⟩] =
    (.error (.weightIndex 1 1), start 2, #[⟨1, 1⟩]) := by
  cbv

end Reader

end ResultCache
