/-
Reading a stream against its layout: whatever is read is laid out as `Stream.Carries` says, and
whatever is laid out so is read. Each function of the reader has the two halves of this, `_sound`
and `_complete`, on the bytes from its position on.
-/
import ResultCache.Proofs.Stream.Layout
import ResultCache.Stream.Reader

namespace ResultCache

open Varint

/-! ## Numbers at a cursor -/

namespace Cursor

/-- The unread bytes. -/
def rest (c : Cursor) : List UInt8 := c.bytes.toList.drop c.position

def advance (n : Nat) (c : Cursor) : Cursor := { c with position := c.position + n }

variable {c c' : Cursor} {w : Width} {v : UInt64} {bs r : List UInt8}

theorem rest_advance (h : c.rest = bs ++ r) : (c.advance bs.length).rest = r := by
  have hdrop : (c.advance bs.length).rest = c.rest.drop bs.length := by
    simp [rest, advance, List.drop_drop]
  rw [hdrop, h, List.drop_left]

theorem advance_advance (c : Cursor) (m n : Nat) : (c.advance m).advance n = c.advance (m + n) := by
  simp [advance, Nat.add_assoc]

theorem window_eq (c : Cursor) : c.window = c.rest.take (Width.word64.maxBytes + 1) := by
  simp [window, rest, List.extract]

theorem next_sound (h : c.next w = .ok (v, c')) :
    ∃ bs, Spells w bs v ∧ c.rest = bs ++ c'.rest ∧ c' = c.advance bs.length := by
  obtain ⟨⟨u, n⟩, hd, h⟩ := bind_eq_ok.1 h
  cases h
  obtain ⟨bs, r, hbytes, hs, rfl⟩ := decode_sound hd
  rw [window_eq] at hbytes
  have hrest : c.rest = bs ++ (r ++ c.rest.drop (Width.word64.maxBytes + 1)) := by
    rw [← List.append_assoc, ← hbytes, List.take_append_drop]
  refine ⟨bs, hs, ?_, rfl⟩
  have hadv : Cursor.rest { c with position := c.position + bs.length } =
      r ++ c.rest.drop (Width.word64.maxBytes + 1) := rest_advance hrest
  rw [hadv]
  exact hrest

theorem next_complete (hs : Spells w bs v) (h : c.rest = bs ++ r) :
    c.next w = .ok (v, c.advance bs.length) := by
  have hlen : bs.length ≤ Width.word64.maxBytes + 1 := by
    have := hs.length_le
    cases w <;> simp only [Width.maxBytes] at this ⊢ <;> omega
  unfold next
  rw [window_eq, h, List.take_append, List.take_of_length_le hlen, decode_complete hs]
  rfl

theorem next_error {d : Damage} (h : c.next w = .error d) : ∀ text, d ≠ .noted text := by
  rcases bind_eq_error.1 h with hd | ⟨p, -, h⟩
  · rintro text rfl
    rcases decode_error hd with h | h <;> cases h
  · cases h

end Cursor

/-! ## Matches of a frame -/

namespace Reader

variable {bytes : Array UInt8} {weights : Array UInt32}

theorem readMatches_sound {n : Nat} : ∀ {doc last : UInt64} {c c' : Cursor} {ms : List Match},
    readMatches weights n doc c = .ok (ms, last, c') →
    ∃ bs cells, Consecutive (Cell.Spelled weights.size) bs cells ∧ cells.length = n ∧
      c.rest = bs ++ c'.rest ∧ c' = c.advance bs.length ∧
      ms = matchesFrom weights doc cells ∧ last = docAfter doc cells := by
  induction n with
  | zero =>
    intro doc last c c' ms h
    cases h
    exact ⟨[], [], .nil, rfl, rfl, rfl, rfl, rfl⟩
  | succ n ih =>
    intro doc last c c' ms h
    rw [readMatches] at h
    obtain ⟨⟨step, c₁⟩, hstep, h⟩ := bind_eq_ok.1 h
    obtain ⟨⟨slot, c₂⟩, hslot, h⟩ := bind_eq_ok.1 h
    dsimp only at h
    split at h
    · cases h
    · rename_i weight hweight
      obtain ⟨⟨ms', last', c₃⟩, hms, h⟩ := bind_eq_ok.1 h
      cases h
      obtain ⟨b₁, hs₁, hr₁, rfl⟩ := Cursor.next_sound hstep
      obtain ⟨b₂, hs₂, hr₂, rfl⟩ := Cursor.next_sound hslot
      obtain ⟨bs, cells, hcells, hlen, hr₃, rfl, rfl, rfl⟩ := ih hms
      -- a number of 32 bits is a position
      have hval : slot.toUInt32.toNat = slot.toNat := Nat.mod_eq_of_lt hs₂.lt
      have hback : slot.toUInt32.toUInt64 = slot := by
        apply UInt64.toNat_inj.1
        rw [UInt32.toNat_toUInt64, hval]
      have hlt : slot.toNat < weights.size := (Array.getElem?_eq_some_iff.1 hweight).1
      have hcell : Cell.Spelled weights.size (b₁ ++ b₂) (step, slot.toUInt32) :=
        .mk hs₁ (hback.symm ▸ hs₂) (hval.symm ▸ hlt)
      refine ⟨b₁ ++ b₂ ++ bs, (step, slot.toUInt32) :: cells, .cons hcell hcells, ?_, ?_, ?_, ?_, rfl⟩
      · rw [List.length_cons, hlen]
      · rw [hr₁, hr₂, hr₃]
        simp
      · simp [Cursor.advance_advance, Nat.add_assoc]
      · simp only [matchesFrom, Cell.docAfter, hval, hweight, Option.getD_some]

theorem readMatches_complete {bs : List UInt8} {cells : List Cell}
    (h : Consecutive (Cell.Spelled weights.size) bs cells) :
    ∀ {doc : UInt64} {c : Cursor} {r : List UInt8}, c.rest = bs ++ r →
    readMatches weights cells.length doc c =
      .ok (matchesFrom weights doc cells, docAfter doc cells, c.advance bs.length) := by
  induction h with
  | nil => exact fun _ => rfl
  | @cons bs rest cell cells hcell _ ih =>
    intro doc c r hr
    obtain ⟨hs₁, hs₂, hlt⟩ := hcell
    rename_i b₁ b₂
    have hr₁ : c.rest = b₁ ++ (b₂ ++ (rest ++ r)) := by rw [hr]; simp
    have hr₂ := Cursor.rest_advance hr₁
    have hr₃ := Cursor.rest_advance hr₂
    have hweight : weights[cell.2.toNat]? = some weights[cell.2.toNat] :=
      Array.getElem?_eq_getElem hlt
    have hmatches : matchesFrom weights doc (cell :: cells) =
        ⟨cell.docAfter doc, weights[cell.2.toNat]⟩ :: matchesFrom weights (cell.docAfter doc) cells := by
      rw [matchesFrom, hweight, Option.getD_some]
    have hadvance : ((c.advance b₁.length).advance b₂.length).advance rest.length =
        c.advance (b₁ ++ b₂ ++ rest).length := by
      simp [Cursor.advance_advance, Nat.add_assoc]
    rw [List.length_cons, readMatches, hmatches, ← hadvance]
    refine bind_eq_ok.2 ⟨_, Cursor.next_complete hs₁ hr₁, ?_⟩
    refine bind_eq_ok.2 ⟨_, Cursor.next_complete hs₂ hr₂, ?_⟩
    dsimp only
    rw [UInt32.toNat_toUInt64, hweight]
    exact bind_eq_ok.2 ⟨_, ih hr₃, rfl⟩

theorem readMatches_error {n : Nat} {d : Damage} : ∀ {doc : UInt64} {c : Cursor},
    readMatches weights n doc c = .error d → ∀ text, d ≠ .noted text := by
  induction n with
  | zero => intro doc c h; cases h
  | succ n ih =>
    intro doc c h
    rw [readMatches] at h
    rcases bind_eq_error.1 h with h | ⟨⟨step, c₁⟩, -, h⟩
    · exact Cursor.next_error h
    rcases bind_eq_error.1 h with h | ⟨⟨slot, c₂⟩, -, h⟩
    · exact Cursor.next_error h
    dsimp only at h
    split at h
    · cases h
      rintro text ⟨⟩
    · rcases bind_eq_error.1 h with h | ⟨p, -, h⟩
      · exact ih h
      · cases h

/-! ## Frames -/

/-- The bytes not yet read. -/
def rest (bytes : Array UInt8) (r : Reader) : List UInt8 := bytes.toList.drop r.position

/-- The reader behind a frame of `length` bytes. -/
def past (length : Nat) (cells : List Cell) (r : Reader) : Reader :=
  { position := r.position + length
    lastDoc := docAfter r.lastDoc cells
    remaining := r.remaining - cells.length }

variable {r r' : Reader} {ms : List Match}

theorem rest_eq_nil_iff : r.rest bytes = [] ↔ bytes.size ≤ r.position := by
  rw [rest, List.drop_eq_nil_iff, Array.length_toList]

theorem rest_past {bs rest : List UInt8} {cells : List Cell} (h : r.rest bytes = bs ++ rest) :
    (r.past bs.length cells).rest bytes = rest :=
  Cursor.rest_advance (c := ⟨bytes, r.position⟩) h

/-- No matches come only from the end of a stream that is complete. -/
theorem frame_done (h : r.frame bytes weights = .ok ([], r')) :
    r.rest bytes = [] ∧ r.remaining = 0 := by
  unfold frame at h
  rw [rest_eq_nil_iff]
  split at h
  · rename_i hend
    split at h
    · rename_i hdone
      exact ⟨hend, hdone⟩
    · cases h
  · split at h
    · cases h
    · obtain ⟨⟨count, c⟩, -, h⟩ := bind_eq_ok.1 h
      dsimp only at h
      split at h
      · cases h
      · rename_i hcount
        obtain ⟨⟨ms, last, c'⟩, hms, h⟩ := bind_eq_ok.1 h
        cases h
        have hlen := readMatches_length hms
        rw [List.length_nil] at hlen
        omega

theorem frame_sound {m : Match} (h : r.frame bytes weights = .ok (m :: ms, r')) :
    ∃ bs cells, Framed weights.size bs cells ∧ cells.length ≤ r.remaining ∧
      r.rest bytes = bs ++ r'.rest bytes ∧ m :: ms = matchesFrom weights r.lastDoc cells ∧
      r' = r.past bs.length cells := by
  unfold frame at h
  split at h
  · split at h <;> cases h
  · split at h
    · cases h
    · obtain ⟨⟨count, c⟩, hcount, h⟩ := bind_eq_ok.1 h
      dsimp only at h
      split at h
      · cases h
      · rename_i hrange
        obtain ⟨⟨ms', last, c'⟩, hms, h⟩ := bind_eq_ok.1 h
        obtain ⟨b₁, hs, hr₁, rfl⟩ := Cursor.next_sound hcount
        obtain ⟨b₂, cells, hcells, hlen, hr₂, rfl, rfl, rfl⟩ := readMatches_sound hms
        have hframed : Framed weights.size (b₁ ++ b₂) cells :=
          .mk hs hlen.symm (by omega) (by omega) hcells
        have hbytes : r.rest bytes = b₁ ++ b₂ ++ (Cursor.advance b₂.length
            (Cursor.advance b₁.length ⟨bytes, r.position⟩)).rest := by
          rw [List.append_assoc, ← hr₂]
          exact hr₁
        obtain ⟨hmatches, hr⟩ := Prod.mk.inj (Except.ok.inj h)
        have hpast : r' = r.past (b₁ ++ b₂).length cells := by
          rw [← hr]
          simp [past, Cursor.advance, Nat.add_assoc, hlen]
        refine ⟨b₁ ++ b₂, cells, hframed, by omega, ?_, hmatches.symm, hpast⟩
        rw [hpast, rest_past hbytes]
        exact hbytes

theorem frame_complete {bs rest : List UInt8} {cells : List Cell} (h : Framed weights.size bs cells)
    (hbytes : r.rest bytes = bs ++ rest) (hlen : cells.length ≤ r.remaining) :
    r.frame bytes weights = .ok (matchesFrom weights r.lastDoc cells, r.past bs.length cells) := by
  obtain ⟨hs, hcount, hpos, hcap, hcells⟩ := h
  rename_i count b₁ b₂
  have hr₁ : (Cursor.mk bytes r.position).rest = b₁ ++ (b₂ ++ rest) := by
    rw [← List.append_assoc]
    exact hbytes
  have hr₂ := Cursor.rest_advance hr₁
  have hmore : ¬ bytes.size ≤ r.position := by
    rw [← rest_eq_nil_iff, hbytes]
    intro hnil
    have hpos := hs.numeral.length_pos
    have hzero := congrArg List.length hnil
    simp only [List.length_append, List.length_nil] at hzero
    omega
  have hexpected : ¬ r.remaining = 0 := by omega
  have hrange : ¬ (count.toNat = 0 ∨ frameCapacity < count.toNat ∨ r.remaining < count.toNat) := by
    omega
  have hadvance : (Cursor.advance b₂.length (Cursor.advance b₁.length ⟨bytes, r.position⟩)).position =
      r.position + (b₁ ++ b₂).length := by
    simp [Cursor.advance, Nat.add_assoc]
  unfold frame past
  rw [if_neg hmore, if_neg hexpected, ← hadvance, ← hcount]
  refine bind_eq_ok.2 ⟨_, Cursor.next_complete hs hr₁, ?_⟩
  dsimp only
  rw [if_neg hrange, hcount]
  exact bind_eq_ok.2 ⟨_, readMatches_complete hcells hr₂, rfl⟩

theorem frame_error {d : Damage} (h : r.frame bytes weights = .error d) :
    ∀ text, d ≠ .noted text := by
  unfold frame at h
  split at h
  · split at h
    · cases h
    · cases h
      rintro text ⟨⟩
  · split at h
    · cases h
      rintro text ⟨⟩
    · rcases bind_eq_error.1 h with h | ⟨⟨count, c⟩, -, h⟩
      · exact Cursor.next_error h
      dsimp only at h
      split at h
      · cases h
        rintro text ⟨⟩
      · rcases bind_eq_error.1 h with h | ⟨p, -, h⟩
        · exact readMatches_error h
        · cases h

/-! ## Whole streams -/

theorem readAll_sound {out all : Array Match} (h : r.readAll bytes weights out = .ok all) :
    ∃ frames : List (List Cell), Consecutive (Framed weights.size) (r.rest bytes) frames ∧
      (frames.map List.length).sum = r.remaining ∧
      all.toList = out.toList ++ matchesFrom weights r.lastDoc frames.flatten := by
  fun_induction readAll bytes weights r out with
  | case1 r out d hf => cases h
  | case2 r out r' hf =>
    cases h
    obtain ⟨hend, hdone⟩ := frame_done hf
    rw [hend, hdone]
    exact ⟨[], .nil, rfl, by simp [matchesFrom]⟩
  | case3 r out m ms r' hf ih =>
    obtain ⟨frames, hframes, hsum, hall⟩ := ih h
    obtain ⟨bs, cells, hframed, hlen, hrest, hms, rfl⟩ := frame_sound hf
    refine ⟨cells :: frames, ?_, ?_, ?_⟩
    · rw [hrest]
      exact .cons hframed hframes
    · simp only [List.map_cons, List.sum_cons, hsum, past]
      omega
    · rw [hall, hms, List.flatten_cons, matchesFrom_append]
      simp [past]

theorem readAll_complete {weights : Array UInt32} {bs : List UInt8} {frames : List (List Cell)}
    (h : Consecutive (Framed weights.size) bs frames) : ∀ {r : Reader}, r.rest bytes = bs →
    (frames.map List.length).sum = r.remaining → ∀ out : Array Match,
    ∃ all, r.readAll bytes weights out = .ok all ∧
      all.toList = out.toList ++ matchesFrom weights r.lastDoc frames.flatten := by
  induction h with
  | nil =>
    intro r hrest hsum out
    have hend := rest_eq_nil_iff.1 hrest
    have hdone : r.remaining = 0 := hsum.symm
    have hf : r.frame bytes weights = .ok ([], r) := by
      unfold frame
      rw [if_pos hend, if_pos hdone]
    refine ⟨out, ?_, by simp [matchesFrom]⟩
    rw [readAll]
    split <;> simp_all
  | @cons bs rest cells frames hframed _ ih =>
    intro r hrest hsum out
    rw [List.map_cons, List.sum_cons] at hsum
    have hf := frame_complete hframed hrest (by omega)
    have hpos := hframed.length_pos
    have hsum' : (frames.map List.length).sum = (r.past bs.length cells).remaining := by
      simp only [past]
      omega
    obtain ⟨all, hall, heq⟩ :=
      ih (rest_past hrest) hsum' (out ++ matchesFrom weights r.lastDoc cells)
    refine ⟨all, ?_, ?_⟩
    · -- a frame is not empty, so reading goes on behind it
      cases hms : matchesFrom weights r.lastDoc cells with
      | nil =>
        have hlen := matchesFrom_length weights cells r.lastDoc
        rw [hms, List.length_nil] at hlen
        omega
      | cons m ms =>
        rw [hms] at hf hall
        rw [readAll]
        split <;> simp_all
    · rw [heq, List.flatten_cons, matchesFrom_append]
      simp [past]

theorem readAll_error {out : Array Match} {d : Damage}
    (h : r.readAll bytes weights out = .error d) : ∀ text, d ≠ .noted text := by
  fun_induction readAll bytes weights r out with
  | case1 r out d' hf =>
    cases h
    exact frame_error hf
  | case2 r out r' hf => cases h
  | case3 r out m ms r' hf ih => exact ih h

end Reader

namespace Stream

theorem unpack_eq_ok_iff {s : Stream} {ms : Array Match} :
    s.unpack = .ok ms ↔ s.Carries ms.toList := by
  constructor
  · intro h
    obtain ⟨frames, hframes, hsum, hall⟩ := Reader.readAll_sound h
    exact ⟨frames, hframes, hsum, hall⟩
  · rintro ⟨frames, hframes, hsum, hms⟩
    obtain ⟨all, hall, heq⟩ :=
      Reader.readAll_complete hframes (r := Reader.start s.total) rfl hsum #[]
    have hsame : all = ms := by
      apply Array.toList_inj.1
      rw [heq, hms]
      rfl
    exact hsame ▸ hall

/-- A stream is read exactly if it is laid out as a stream of the expected number of matches, and
then as these matches; any other stream is reported as corrupt, by the reader itself. -/
theorem unpack_spec (s : Stream) :
    (∀ ms, s.unpack = .ok ms ↔ s.Carries ms.toList) ∧
    ((¬ ∃ ms, s.Carries ms) → ∃ d, s.unpack = .error d ∧
      (CacheError.corrupt d).isCorrupt = true ∧ ∀ text, d ≠ .noted text) := by
  refine ⟨fun ms => unpack_eq_ok_iff, fun hno => ?_⟩
  cases h : s.unpack with
  | ok ms => exact absurd ⟨_, unpack_eq_ok_iff.1 h⟩ hno
  | error d => exact ⟨d, rfl, rfl, Reader.readAll_error h⟩

/-- Numbers need not be in their shortest form. -/
example : unpack { bytes := #[0x81, 0, 0x82, 0x80, 0, 0x80, 0], weights := #[7], total := 1 } =
    .ok #[⟨1, 7⟩] := by cbv

end Stream

end ResultCache
