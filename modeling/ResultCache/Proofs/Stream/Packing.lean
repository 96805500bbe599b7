/-
Packing and reading back. Whatever is appended and whenever a frame is closed, the frames closed so
far together with the open one hold exactly the matches appended (`Writer.Packs`), in the layout the
reader accepts. The weight table and the map into it are inverse to each other, and as there are only
so many weights of 32 bits, a position of 32 bits is never ambiguous (`Writer.Table`).
-/
import ResultCache.Entry
import ResultCache.Proofs.Stream.Reading
import Mathlib.Data.List.Nodup
import Mathlib.Data.List.Perm.Subperm

namespace ResultCache

open Varint

/-! ## What is done to a writer -/

namespace Writer

inductive Action where
  | append (m : Match)
  | flush

def perform : Action → Writer → Writer
  | .append m, w => w.append m
  | .flush, w => w.flush

def performAll (actions : List Action) (w : Writer) : Writer :=
  actions.foldl (fun w a => w.perform a) w

/-- The matches appended, in order. -/
def appended : List Action → List Match
  | [] => []
  | .append m :: actions => m :: appended actions
  | .flush :: actions => appended actions

/-! ## The weight table -/

/-- Every weight of the table stands there once, and the map tells where. -/
structure Table (w : Writer) : Prop where
  nodup : w.weights.toList.Nodup
  slots_iff : ∀ weight slot : UInt32, w.slots[weight]? = some slot ↔ w.weights[slot.toNat]? = some weight

theorem length_le_of_nodup {l : List UInt32} (h : l.Nodup) : l.length ≤ 2 ^ 32 := by
  have hnodup : (l.map UInt32.toNat).Nodup := h.map fun a b hab => UInt32.toNat_inj.1 hab
  have hsub : l.map UInt32.toNat ⊆ List.range (2 ^ 32) := by
    intro n hn
    obtain ⟨a, -, rfl⟩ := List.mem_map.1 hn
    exact List.mem_range.2 a.toNat_lt
  have hle := (hnodup.subperm hsub).length_le
  rwa [List.length_map, List.length_range] at hle

theorem Table.size_le {w : Writer} (h : w.Table) : w.weights.size ≤ 2 ^ 32 :=
  length_le_of_nodup h.nodup

theorem empty_table : empty.Table := by
  refine ⟨List.nodup_nil, fun weight slot => ?_⟩
  have hslots : empty.slots[weight]? = none := Std.HashMap.getElem?_empty
  have hweights : empty.weights[slot.toNat]? = none := rfl
  rw [hslots, hweights]
  simp

/-- A weight without a position is none of the table. -/
theorem Table.notMem {w : Writer} {weight : UInt32} (h : w.Table) (hnone : w.slots[weight]? = none) :
    weight ∉ w.weights.toList := by
  intro hmem
  obtain ⟨i, hi, hget⟩ := List.getElem_of_mem hmem
  have hsize : w.weights.size ≤ 2 ^ 32 := h.size_le
  have hval : i.toUInt32.toNat = i := Nat.mod_eq_of_lt (Nat.lt_of_lt_of_le hi hsize)
  have hsome : w.slots[weight]? = some i.toUInt32 := by
    rw [h.slots_iff, hval, Array.getElem?_eq_getElem hi]
    exact congrArg some hget
  rw [hnone] at hsome
  cases hsome

variable {w : Writer} {weight : UInt32}

theorem intern_held {slot : UInt32} (h : w.slots[weight]? = some slot) :
    w.intern weight = (slot, w) := by
  unfold intern
  rw [h]

theorem intern_new (h : w.slots[weight]? = none) :
    w.intern weight = (w.weights.size.toUInt32,
      { w with
        weights := w.weights.push weight
        slots := w.slots.insert weight w.weights.size.toUInt32 }) := by
  unfold intern
  rw [h]

theorem intern_table (h : w.Table) (weight : UInt32) : (w.intern weight).2.Table := by
  rcases hs : w.slots[weight]? with _ | slot
  · have hnew := h.notMem hs
    have hnodup : (w.weights.push weight).toList.Nodup := by
      rw [Array.toList_push, List.nodup_append]
      refine ⟨h.nodup, List.nodup_singleton _, ?_⟩
      rintro a ha b hb rfl
      exact hnew (List.mem_singleton.1 hb ▸ ha)
    have hsize : w.weights.size < 2 ^ 32 := by
      have := length_le_of_nodup hnodup
      rw [Array.length_toList, Array.size_push] at this
      omega
    have hval : w.weights.size.toUInt32.toNat = w.weights.size := Nat.mod_eq_of_lt hsize
    rw [intern_new hs]
    refine ⟨hnodup, fun weight' slot => ?_⟩
    show (w.slots.insert weight _)[weight']? = some slot ↔ (w.weights.push weight)[slot.toNat]? = _
    rw [Std.HashMap.getElem?_insert, Array.getElem?_push]
    by_cases hslot : slot.toNat = w.weights.size
    · -- the position just given out
      have heq : slot = w.weights.size.toUInt32 := UInt32.toNat_inj.1 (hslot.trans hval.symm)
      have hfree : ¬ w.slots[weight']? = some slot := by
        rw [h.slots_iff, hslot]
        simp
      rw [if_pos hslot]
      by_cases hw : weight = weight'
      · simp [hw, heq]
      · simp [hw, hfree]
    · rw [if_neg hslot, ← h.slots_iff]
      by_cases hw : weight = weight'
      · subst hw
        have hne : ¬ w.weights.size.toUInt32 = slot := by
          rintro rfl
          exact hslot hval
        simp [hs, hne]
      · simp [hw]
  · rw [intern_held hs]
    exact h

/-- The position given out leads to the weight, and no other weight moves. -/
theorem intern_weights (h : w.Table) (weight : UInt32) :
    (w.intern weight).2.weights[(w.intern weight).1.toNat]? = some weight ∧
      ∀ i < w.weights.size, (w.intern weight).2.weights[i]? = w.weights[i]? := by
  have htable := intern_table h weight
  rcases hs : w.slots[weight]? with _ | slot
  · rw [intern_new hs] at htable ⊢
    refine ⟨(htable.slots_iff _ _).1 ?_, fun i hi => ?_⟩
    · exact Std.HashMap.getElem?_insert_self
    · exact Array.getElem?_push_lt hi ▸ (Array.getElem?_eq_getElem hi).symm
  · rw [intern_held hs]
    exact ⟨(h.slots_iff _ _).1 hs, fun i _ => rfl⟩

theorem size_le_intern (weight : UInt32) (w : Writer) :
    w.weights.size ≤ (w.intern weight).2.weights.size := by
  rcases hs : w.slots[weight]? with _ | slot
  · rw [intern_new hs]
    simp
  · rw [intern_held hs]

theorem intern_frame (weight : UInt32) (w : Writer) :
    (w.intern weight).2.bytes = w.bytes ∧ (w.intern weight).2.pending = w.pending ∧
      (w.intern weight).2.lastDoc = w.lastDoc ∧ (w.intern weight).2.total = w.total := by
  rcases hs : w.slots[weight]? with _ | slot
  · rw [intern_new hs]
    exact ⟨rfl, rfl, rfl, rfl⟩
  · rw [intern_held hs]
    exact ⟨rfl, rfl, rfl, rfl⟩

end Writer

/-! ## Frames written -/

theorem cell_bytes_spelled {size : Nat} {c : Cell} (h : c.2.toNat < size) :
    Cell.Spelled size c.bytes c := by
  have hslot : c.2.toUInt64.toNat < 2 ^ 32 := by
    rw [UInt32.toNat_toUInt64]
    exact c.2.toNat_lt
  exact .mk (encode_spells c.1.toNat_lt) (encode_spells hslot) h

theorem frameBytes_framed {size : Nat} {cells : List Cell} (hpos : 1 ≤ cells.length)
    (hcap : cells.length ≤ frameCapacity) (hknown : ∀ c ∈ cells, c.2.toNat < size) :
    Framed size (frameBytes cells) cells := by
  have hlt : cells.length < 2 ^ 32 := Nat.lt_of_le_of_lt hcap (by decide)
  have hcount : cells.length.toUInt64.toNat = cells.length := Nat.mod_eq_of_lt (by omega)
  refine .mk (encode_spells ?_) hcount hpos hcap (.flatMap fun c hc => cell_bytes_spelled (hknown c hc))
  rw [hcount]
  exact hlt

/-- New weights behind those of a table leave the matches of known positions alone. -/
theorem matchesFrom_congr {weights weights' : Array UInt32}
    (h : ∀ i < weights.size, weights'[i]? = weights[i]?) {cells : List Cell} :
    ∀ doc, (∀ c ∈ cells, c.2.toNat < weights.size) →
      matchesFrom weights' doc cells = matchesFrom weights doc cells := by
  induction cells with
  | nil => exact fun _ _ => rfl
  | cons c cells ih =>
    intro doc hknown
    have hc := h _ (hknown c List.mem_cons_self)
    have hrest := ih (c.docAfter doc) fun c' hc' => hknown c' (List.mem_cons_of_mem _ hc')
    rw [matchesFrom, matchesFrom, hc, hrest]

/-! ## What a writer holds -/

namespace Writer

/-- The cells of all frames, those of the open one last. -/
def cells (frames : List (List Cell)) (w : Writer) : List Cell := frames.flatten ++ w.pending.toList

/-- The writer has closed these frames and holds these matches. -/
structure Packs (w : Writer) (frames : List (List Cell)) (ms : List Match) : Prop where
  table : w.Table
  bytes : w.bytes.toList = frames.flatMap frameBytes
  closed : ∀ f ∈ frames, 1 ≤ f.length ∧ f.length ≤ frameCapacity
  room : w.pending.size ≤ frameCapacity
  known : ∀ c ∈ w.cells frames, c.2.toNat < w.weights.size
  lastDoc : w.lastDoc = docAfter 0 (w.cells frames)
  held : matchesFrom w.weights 0 (w.cells frames) = ms
  total : w.total = ms.length

theorem empty_packs : empty.Packs [] [] where
  table := empty_table
  bytes := rfl
  closed := by simp
  room := Nat.zero_le _
  known := by simp [cells, empty]
  lastDoc := rfl
  held := rfl
  total := rfl

variable {w : Writer} {frames : List (List Cell)} {ms : List Match}

theorem Packs.flush (h : w.Packs frames ms) :
    w.flush.pending = #[] ∧ ∃ frames', w.flush.Packs frames' ms := by
  unfold Writer.flush
  by_cases hempty : w.pending.isEmpty = true
  · rw [if_pos hempty]
    exact ⟨Array.isEmpty_iff.1 hempty, frames, h⟩
  · rw [if_neg hempty]
    refine ⟨rfl, frames ++ [w.pending.toList], ?_⟩
    have hpos : 1 ≤ w.pending.size := by
      rw [Array.isEmpty_iff_size_eq_zero] at hempty
      omega
    -- the cells stay the same, those of the open frame only change their place
    have hcells : cells (frames ++ [w.pending.toList])
        { w with bytes := w.bytes ++ frameBytes w.pending.toList, pending := #[] } = w.cells frames := by
      simp [cells]
    exact {
      table := ⟨h.table.nodup, h.table.slots_iff⟩
      bytes := by simp [h.bytes]
      closed := by
        intro f hf
        rcases List.mem_append.1 hf with hf | hf
        · exact h.closed f hf
        · rw [List.mem_singleton.1 hf, Array.length_toList]
          exact ⟨hpos, h.room⟩
      room := Nat.zero_le _
      known := by
        rw [hcells]
        exact h.known
      lastDoc := by
        rw [hcells]
        exact h.lastDoc
      held := by
        rw [hcells]
        exact h.held
      total := h.total }

/-- The writer with one more match in the open frame. -/
def record (m : Match) (w : Writer) : Writer :=
  { (w.intern m.weight).2 with
    pending := (w.intern m.weight).2.pending.push
      (Zigzag.encode (m.doc - (w.intern m.weight).2.lastDoc).toInt64, (w.intern m.weight).1)
    lastDoc := m.doc
    total := (w.intern m.weight).2.total + 1 }

theorem append_eq (m : Match) (w : Writer) :
    w.append m = if (w.record m).pending.size = frameCapacity then (w.record m).flush else w.record m :=
  rfl

theorem append_empty (m : Match) :
    empty.append m =
      { weights := #[m.weight], slots := empty.slots.insert m.weight 0
        pending := #[(Zigzag.encode m.doc.toInt64, 0)], lastDoc := m.doc, total := 1 } := by
  have hfirst : empty.record m =
      { weights := #[m.weight], slots := empty.slots.insert m.weight 0
        pending := #[(Zigzag.encode (m.doc - 0).toInt64, 0)], lastDoc := m.doc, total := 1 } := by
    unfold record
    rw [intern_new Std.HashMap.getElem?_empty]
    rfl
  rw [append_eq, hfirst, UInt64.sub_zero]
  exact if_neg (show ¬ 1 = frameCapacity by decide)

/-- The step to a document leads there, however far it is. -/
theorem docAfter_step (doc lastDoc : UInt64) (slot : UInt32) :
    Cell.docAfter lastDoc (Zigzag.encode (doc - lastDoc).toInt64, slot) = doc :=
  Zigzag.add_decode_encode_sub lastDoc doc

theorem Packs.record (h : w.Packs frames ms) (hroom : w.pending.size < frameCapacity) (m : Match) :
    (w.record m).Packs frames (ms ++ [m]) := by
  obtain ⟨hbytes, hpending, hlastDoc, htotal⟩ := intern_frame m.weight w
  obtain ⟨hweight, hold⟩ := intern_weights h.table m.weight
  have htable := intern_table h.table m.weight
  have hcells : (w.record m).cells frames =
      w.cells frames ++ [(Zigzag.encode (m.doc - w.lastDoc).toInt64, (w.intern m.weight).1)] := by
    simp [cells, Writer.record, hpending, hlastDoc]
  have hslot : (w.intern m.weight).1.toNat < (w.intern m.weight).2.weights.size :=
    (Array.getElem?_eq_some_iff.1 hweight).1
  exact {
    table := ⟨htable.nodup, htable.slots_iff⟩
    bytes := (congrArg Array.toList hbytes).trans h.bytes
    closed := h.closed
    room := by
      show (Array.push _ _).size ≤ frameCapacity
      rw [Array.size_push, hpending]
      exact hroom
    known := by
      rw [hcells]
      intro c hc
      rcases List.mem_append.1 hc with hc | hc
      · exact Nat.lt_of_lt_of_le (h.known c hc) (size_le_intern m.weight w)
      · rw [List.mem_singleton.1 hc]
        exact hslot
    lastDoc := by
      rw [hcells, docAfter_append, ← h.lastDoc]
      exact (docAfter_step m.doc w.lastDoc _).symm
    held := by
      show matchesFrom (w.intern m.weight).2.weights 0 _ = _
      rw [hcells, matchesFrom_append, ← h.lastDoc, matchesFrom_congr hold 0 h.known, h.held,
        matchesFrom, docAfter_step, hweight]
      rfl
    total := by
      show (w.intern m.weight).2.total + 1 = _
      rw [htotal, h.total, List.length_append, List.length_singleton] }

/-- Between any two actions the open frame has room for one more match. -/
theorem Packs.append (h : w.Packs frames ms) (hroom : w.pending.size < frameCapacity) (m : Match) :
    (w.append m).pending.size < frameCapacity ∧ ∃ frames', (w.append m).Packs frames' (ms ++ [m]) := by
  have hrecord := h.record hroom m
  rw [append_eq]
  by_cases hfull : (w.record m).pending.size = frameCapacity
  · obtain ⟨hpending, hflush⟩ := hrecord.flush
    rw [if_pos hfull, hpending]
    exact ⟨by decide, hflush⟩
  · rw [if_neg hfull]
    have := hrecord.room
    exact ⟨by omega, frames, hrecord⟩

theorem Packs.performAll (actions : List Action) : ∀ {w : Writer} {frames : List (List Cell)}
    {ms : List Match}, w.Packs frames ms → w.pending.size < frameCapacity →
    ∃ frames', (w.performAll actions).Packs frames' (ms ++ appended actions) := by
  induction actions with
  | nil =>
    intro w frames ms h _
    exact ⟨frames, by rwa [appended, List.append_nil]⟩
  | cons a actions ih =>
    intro w frames ms h hroom
    cases a with
    | append m =>
      obtain ⟨hroom', frames', h'⟩ := h.append hroom m
      obtain ⟨frames'', h''⟩ := ih h' hroom'
      rw [List.append_assoc] at h''
      exact ⟨frames'', h''⟩
    | flush =>
      obtain ⟨hpending, frames', h'⟩ := h.flush
      have hroom' : w.flush.pending.size < frameCapacity := by rw [hpending]; decide
      exact ih h' hroom'

theorem Packs.carries (h : w.Packs frames ms) : w.finish.Carries ms := by
  obtain ⟨hpending, frames', h'⟩ := h.flush
  have hcells : w.flush.cells frames' = frames'.flatten := by
    rw [cells, hpending, List.append_nil]
  have hknown := h'.known
  have hheld := h'.held
  rw [hcells] at hknown hheld
  refine ⟨frames', ?_, ?_, hheld.symm⟩
  · show Consecutive (Framed w.flush.weights.size) w.flush.bytes.toList frames'
    rw [h'.bytes]
    refine .flatMap fun f hf => ?_
    obtain ⟨hpos, hcap⟩ := h'.closed f hf
    exact frameBytes_framed hpos hcap fun c hc => hknown c (List.mem_flatten_of_mem hf hc)
  · show (frames'.map List.length).sum = w.flush.total
    rw [h'.total, ← hheld, matchesFrom_length, List.length_flatten]

/-! ## Reading back -/

/-- Whatever is appended and wherever frames are closed in between, the stream announces and holds
exactly the matches appended, also as part of an entry; and the weight table has a position of 32
bits for every weight of it, and one only. -/
theorem finish_spec (actions : List Action) (index : Int64) (now : Instant) (elapsed : Nat)
    (f : Fingerprint) :
    (empty.performAll actions).finish.total = (appended actions).length ∧
    (empty.performAll actions).finish.unpack = .ok (appended actions).toArray ∧
    (({ index, writer := empty.performAll actions } : Draft).finish now elapsed).unpack =
      .ok (appended actions).toArray ∧
    ((({ index, writer := empty.performAll actions } : Draft).finish now elapsed).withFingerprint f).unpack =
      .ok (appended actions).toArray ∧
    (empty.performAll actions).finish.weights.toList.Nodup ∧
    (empty.performAll actions).finish.weights.size ≤ 2 ^ 32 ∧
    ∀ weight slot : UInt32, (empty.performAll actions).slots[weight]? = some slot ↔
      (empty.performAll actions).weights[slot.toNat]? = some weight := by
  obtain ⟨frames, h⟩ := Packs.performAll actions empty_packs (by decide)
  rw [List.nil_append] at h
  obtain ⟨-, frames', hflush⟩ := h.flush
  have hunpack : (empty.performAll actions).finish.unpack = .ok (appended actions).toArray :=
    Stream.unpack_eq_ok_iff.2 h.carries
  exact ⟨hflush.total, hunpack, hunpack, hunpack, hflush.table.nodup, hflush.table.size_le,
    h.table.slots_iff⟩

end Writer

end ResultCache
