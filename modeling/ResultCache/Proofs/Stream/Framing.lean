/-
What a writer makes of the matches appended. At any time it holds a `Filling` of them
(`Writer.Fills`): in its table the distinct weights in order of first appearance, the closed frames
as bytes, the open one as cells. From this come the length of a stream, the size of an entry, and
that the frames written are the frames read back.
-/
import ResultCache.Proofs.Ranker.Replaying
import ResultCache.Proofs.Stream.Filling

namespace ResultCache

open Varint

/-! ## What a writer holds -/

namespace Writer

/-- The distinct weights of some matches, in order of first appearance. -/
def weightsOf (ms : List Match) : List UInt32 := (ms.map Match.weight).eraseDups

theorem mem_weightsOf {ms : List Match} {m : Match} (h : m ∈ ms) : m.weight ∈ weightsOf ms :=
  List.mem_eraseDups.2 (List.mem_map_of_mem h)

theorem weightsOf_concat (ms : List Match) (m : Match) : weightsOf (ms ++ [m]) =
    if m.weight ∈ weightsOf ms then weightsOf ms else weightsOf ms ++ [m.weight] := by
  have hmem : m.weight ∈ weightsOf ms ↔ m.weight ∈ ms.map Match.weight := List.mem_eraseDups
  rw [weightsOf, List.map_append, List.map_singleton, List.eraseDups_append, ← weightsOf,
    List.removeAll, List.filter_singleton, List.elem_eq_mem]
  by_cases h : m.weight ∈ ms.map Match.weight
  · rw [if_pos (hmem.2 h), decide_eq_true h]
    simp
  · rw [if_neg (mt hmem.1 h), decide_eq_false h]
    rfl

/-- The writer holds the matches of these frames. -/
structure Fills (w : Writer) (s : Filling) : Prop where
  table : w.Table
  weights : w.weights.toList = weightsOf s.all
  bytes : w.bytes.toList = (framesFrom w.weights.toList 0 s.closed).flatMap frameBytes
  pending : w.pending.toList = cellsFrom w.weights.toList (docBehind 0 s.closed.flatten) s.opened
  lastDoc : w.lastDoc = docBehind 0 s.all
  total : w.total = s.all.length

theorem empty_fills : empty.Fills {} where
  table := empty_table
  weights := rfl
  bytes := rfl
  pending := rfl
  lastDoc := rfl
  total := rfl

variable {w : Writer} {s : Filling}

theorem Fills.pending_size (h : w.Fills s) : w.pending.size = s.opened.length := by
  rw [← Array.length_toList, h.pending, cellsFrom_length]

theorem Fills.flush (h : w.Fills s) : w.flush.Fills s.close := by
  have hsize := h.pending_size
  unfold Writer.flush
  by_cases hnil : s.opened = []
  · have hempty : w.pending.isEmpty = true := by
      rw [hnil] at hsize
      exact Array.isEmpty_iff_size_eq_zero.2 hsize
    rw [if_pos hempty, Filling.close_of_nil hnil]
    exact h
  · have hempty : ¬ w.pending.isEmpty = true := by
      rw [Array.isEmpty_iff_size_eq_zero, hsize]
      exact fun hzero => hnil (List.eq_nil_of_length_eq_zero hzero)
    have hall := Filling.all_close s
    rw [if_neg hempty]
    rw [Filling.close_of_ne_nil hnil] at hall ⊢
    exact {
      table := ⟨h.table.nodup, h.table.slots_iff⟩
      weights := by rw [hall]; exact h.weights
      bytes := by
        show (w.bytes ++ frameBytes w.pending.toList).toList = _
        rw [Array.toList_appendList, h.bytes, h.pending, framesFrom_append, List.flatMap_append]
        simp [framesFrom]
      pending := rfl
      lastDoc := by rw [hall]; exact h.lastDoc
      total := by rw [hall]; exact h.total }

/-- What interning does to the table: a weight that is new goes behind all others. -/
theorem intern_toList (h : w.Table) (weight : UInt32) :
    (w.intern weight).2.weights.toList = w.weights.toList ++
      (if weight ∈ w.weights.toList then [] else [weight]) := by
  rcases hs : w.slots[weight]? with _ | slot
  · rw [intern_new hs, if_neg (h.notMem hs), Array.toList_push]
  · have hget : w.weights[slot.toNat]? = some weight := (h.slots_iff _ _).1 hs
    have hmem : weight ∈ w.weights.toList := by
      rw [← Array.getElem?_toList] at hget
      exact List.mem_of_getElem? hget
    rw [intern_held hs, if_pos hmem, List.append_nil]

/-- The position given out is that of the weight. -/
theorem intern_slot (h : w.Table) (weight : UInt32) :
    (w.intern weight).1 = ((w.intern weight).2.weights.toList.idxOf weight).toUInt32 := by
  obtain ⟨hget, -⟩ := intern_weights h weight
  have hnodup := (intern_table h weight).nodup
  rw [← Array.getElem?_toList] at hget
  obtain ⟨hlt, hget⟩ := List.getElem?_eq_some_iff.1 hget
  have hidx := hnodup.idxOf_getElem _ hlt
  rw [hget] at hidx
  rw [hidx]
  exact (UInt32.ofNat_toNat).symm

theorem Fills.record (h : w.Fills s) (m : Match) : (w.record m).Fills (s.put m) := by
  obtain ⟨hbytes, hpending, hlastDoc, htotal⟩ := intern_frame m.weight w
  have htable := intern_table h.table m.weight
  have hweights := intern_toList h.table m.weight
  have hslot := intern_slot h.table m.weight
  have hknown : ∀ m' ∈ s.all, m'.weight ∈ w.weights.toList := by
    rw [h.weights]
    exact fun m' hm' => mem_weightsOf hm'
  have hclosed : ∀ f ∈ s.closed, ∀ m' ∈ f, m'.weight ∈ w.weights.toList := fun f hf m' hm' =>
    hknown m' (List.mem_append_left _ (List.mem_flatten_of_mem hf hm'))
  have hopened : ∀ m' ∈ s.opened, m'.weight ∈ w.weights.toList := fun m' hm' =>
    hknown m' (List.mem_append_right _ hm')
  have hdoc : docBehind (docBehind 0 s.closed.flatten) s.opened = w.lastDoc := by
    rw [h.lastDoc, Filling.all, docBehind_append]
  exact {
    table := ⟨htable.nodup, htable.slots_iff⟩
    weights := by
      show (w.intern m.weight).2.weights.toList = _
      rw [hweights, Filling.all_put, weightsOf_concat, ← h.weights]
      split
      · rw [List.append_nil]
      · rfl
    bytes := by
      show (w.intern m.weight).2.bytes.toList =
        (framesFrom (w.intern m.weight).2.weights.toList 0 s.closed).flatMap frameBytes
      rw [hbytes, h.bytes, hweights, framesFrom_extend _ _ hclosed]
    pending := by
      show (Array.push _ _).toList =
        cellsFrom (w.intern m.weight).2.weights.toList (docBehind 0 s.closed.flatten) (s.opened ++ [m])
      rw [Array.toList_push, hpending, h.pending, cellsFrom_append, hdoc, hlastDoc, hslot]
      conv_rhs => rw [hweights, cellsFrom_extend _ _ hopened, ← hweights]
      rfl
    lastDoc := by
      rw [Filling.all_put, docBehind_append]
      rfl
    total := by
      show (w.intern m.weight).2.total + 1 = _
      rw [htotal, h.total, Filling.all_put, List.length_append, List.length_singleton] }

theorem Fills.append (h : w.Fills s) (m : Match) : (w.append m).Fills (s.append m) := by
  have hrecord := h.record m
  rw [append_eq, Filling.append, hrecord.pending_size]
  split
  · exact hrecord.flush
  · exact hrecord

theorem Fills.performAll (actions : List Action) : ∀ {w : Writer} {s : Filling},
    w.Fills s → (w.performAll actions).Fills (s.performAll actions) := by
  induction actions with
  | nil => exact fun h => h
  | cons a actions ih =>
    intro w s h
    cases a with
    | append m => exact ih (h.append m)
    | flush => exact ih h.flush

/-! ## When a frame is closed -/

theorem frameBytes_length_pos (cells : List Cell) : 0 < (frameBytes cells).length := by
  rw [frameBytes, List.length_append, encode, groups_length]
  omega

theorem flush_closedLength_ne_iff (w : Writer) :
    w.flush.closedLength ≠ w.closedLength ↔ w.pending.size ≠ 0 := by
  rw [← not_iff_not, not_not, not_not, ← Array.isEmpty_iff_size_eq_zero]
  unfold Writer.flush
  by_cases hempty : w.pending.isEmpty = true
  · rw [if_pos hempty]
    exact iff_of_true rfl hempty
  · rw [if_neg hempty]
    refine iff_of_false (fun hsame => ?_) hempty
    have hpos := frameBytes_length_pos w.pending.toList
    simp only [closedLength, ← Array.length_toList, Array.toList_appendList,
      List.length_append] at hsame
    omega

/-- A frame is closed by the match that fills it, or early if there is a match in it. -/
theorem closes_iff (w : Writer) (a : Action) : (w.perform a).closedLength ≠ w.closedLength ↔
    (∃ m, a = .append m ∧ w.pending.size + 1 = frameCapacity) ∨
      (a = .flush ∧ w.pending.size ≠ 0) := by
  cases a with
  | flush =>
    have h := flush_closedLength_ne_iff w
    simpa [perform] using h
  | append m =>
    obtain ⟨hbytes, hpending, -⟩ := intern_frame m.weight w
    have hsize : (w.record m).pending.size = w.pending.size + 1 := by
      show (Array.push _ _).size = _
      rw [Array.size_push, hpending]
    have hsame : (w.record m).closedLength = w.closedLength := congrArg Array.size hbytes
    have happend : (w.append m).closedLength ≠ w.closedLength ↔
        w.pending.size + 1 = frameCapacity := by
      rw [append_eq, ← hsame, hsize]
      by_cases hfull : w.pending.size + 1 = frameCapacity
      · rw [if_pos hfull, flush_closedLength_ne_iff, hsize]
        exact iff_of_true (Nat.succ_ne_zero _) hfull
      · rw [if_neg hfull]
        exact iff_of_false (fun h => h rfl) hfull
    simpa [perform] using happend

end Writer

/-! ## Reading the frames back -/

/-- The matches that frames of cells stand for, one frame after another. -/
def matchFrames (weights : Array UInt32) : UInt64 → List (List Cell) → List (List Match)
  | _, [] => []
  | doc, cells :: frames =>
    matchesFrom weights doc cells :: matchFrames weights (docAfter doc cells) frames

theorem Reader.frames_complete {bytes : Array UInt8} {weights : Array UInt32} {bs : List UInt8}
    {frames : List (List Cell)} (h : Consecutive (Framed weights.size) bs frames) :
    ∀ {r : Reader}, r.rest bytes = bs → (frames.map List.length).sum = r.remaining →
    r.frames bytes weights = (matchFrames weights r.lastDoc frames, none) := by
  induction h with
  | nil =>
    intro r hrest hsum
    have hend := rest_eq_nil_iff.1 hrest
    have hdone : r.remaining = 0 := hsum.symm
    have hf : r.frame bytes weights = .ok ([], r) := by rw [frame, if_pos hend, if_pos hdone]
    exact frames_done hf
  | @cons bs rest cells frames hframed _ ih =>
    intro r hrest hsum
    rw [List.map_cons, List.sum_cons] at hsum
    have hf := frame_complete hframed hrest (by omega)
    have hlen := matchesFrom_length weights cells r.lastDoc
    have hpos := hframed.length_pos
    have hsum' : (frames.map List.length).sum = (r.past bs.length cells).remaining := by
      simp only [past]
      omega
    have hbehind := ih (rest_past hrest) hsum'
    rw [matchFrames]
    cases hms : matchesFrom weights r.lastDoc cells with
    | nil =>
      rw [hms, List.length_nil] at hlen
      omega
    | cons m ms =>
      rw [hms] at hf
      rw [frames_next hf, hbehind]
      rfl

section

variable {weights : Array UInt32} (hsize : weights.size ≤ 2 ^ 32)

include hsize

/-- The position in a cell is that of the weight, as the table is not too long for 32 bits. -/
theorem Cell.of_weight {m : Match} (hm : m.weight ∈ weights.toList) (doc : UInt64) :
    weights[(Cell.of weights.toList doc m).2.toNat]? = some m.weight := by
  have hlt : weights.toList.idxOf m.weight < weights.size := List.idxOf_lt_length_of_mem hm
  have hval : (weights.toList.idxOf m.weight).toUInt32.toNat = weights.toList.idxOf m.weight :=
    Nat.mod_eq_of_lt (Nat.lt_of_lt_of_le hlt hsize)
  rw [Cell.of]
  dsimp only
  rw [hval, ← Array.getElem?_toList]
  exact List.getElem?_idxOf hm

theorem known_of_mem_cellsFrom {ms : List Match} {c : Cell} : ∀ {doc : UInt64},
    (∀ m ∈ ms, m.weight ∈ weights.toList) → c ∈ cellsFrom weights.toList doc ms →
    c.2.toNat < weights.size := by
  induction ms with
  | nil =>
    intro doc _ hc
    cases hc
  | cons m ms ih =>
    intro doc hms hc
    rcases List.mem_cons.1 hc with rfl | hc
    · have h := Cell.of_weight hsize (hms m List.mem_cons_self) doc
      exact (Array.getElem?_eq_some_iff.1 h).1
    · exact ih (fun m' hm' => hms m' (List.mem_cons_of_mem _ hm')) hc

theorem matchesFrom_cellsFrom {ms : List Match} : ∀ doc : UInt64,
    (∀ m ∈ ms, m.weight ∈ weights.toList) →
    matchesFrom weights doc (cellsFrom weights.toList doc ms) = ms ∧
      docAfter doc (cellsFrom weights.toList doc ms) = docBehind doc ms := by
  induction ms with
  | nil => exact fun _ _ => ⟨rfl, rfl⟩
  | cons m ms ih =>
    intro doc hms
    have hweight := Cell.of_weight hsize (hms m List.mem_cons_self) doc
    have hdoc : (Cell.of weights.toList doc m).docAfter doc = m.doc :=
      Writer.docAfter_step m.doc doc _
    obtain ⟨hmatches, hlast⟩ := ih m.doc fun m' hm' => hms m' (List.mem_cons_of_mem _ hm')
    refine ⟨?_, ?_⟩
    · rw [cellsFrom, matchesFrom, hdoc, hweight, hmatches]
      rfl
    · rw [cellsFrom, docAfter, List.foldl_cons, hdoc]
      exact hlast

theorem matchFrames_framesFrom {fs : List (List Match)} : ∀ doc : UInt64,
    (∀ f ∈ fs, ∀ m ∈ f, m.weight ∈ weights.toList) →
    matchFrames weights doc (framesFrom weights.toList doc fs) = fs := by
  induction fs with
  | nil => exact fun _ _ => rfl
  | cons f fs ih =>
    intro doc hfs
    obtain ⟨hmatches, hlast⟩ := matchesFrom_cellsFrom hsize doc (hfs f List.mem_cons_self)
    rw [framesFrom, matchFrames, hmatches, hlast,
      ih _ fun f' hf' => hfs f' (List.mem_cons_of_mem _ hf')]

/-- The bytes of frames that are neither empty nor too long are laid out as these frames. -/
theorem framesFrom_consecutive {fs : List (List Match)} : ∀ doc : UInt64,
    (∀ f ∈ fs, ∀ m ∈ f, m.weight ∈ weights.toList) →
    (∀ f ∈ fs, 1 ≤ f.length ∧ f.length ≤ frameCapacity) →
    Consecutive (Framed weights.size) ((framesFrom weights.toList doc fs).flatMap frameBytes)
      (framesFrom weights.toList doc fs) := by
  induction fs with
  | nil => exact fun _ _ _ => .nil
  | cons f fs ih =>
    intro doc hfs hlen
    have hbehind := ih (docBehind doc f) (fun f' hf' => hfs f' (List.mem_cons_of_mem _ hf'))
      fun f' hf' => hlen f' (List.mem_cons_of_mem _ hf')
    obtain ⟨hpos, hcap⟩ := hlen f List.mem_cons_self
    rw [framesFrom, List.flatMap_cons]
    refine .cons (frameBytes_framed ?_ ?_ fun c hc => ?_) hbehind
    · rwa [cellsFrom_length]
    · rwa [cellsFrom_length]
    · exact known_of_mem_cellsFrom hsize (hfs f List.mem_cons_self) hc

end

namespace Writer

variable {w : Writer} {s : Filling}

/-- Nothing is left open in a stream that is handed over. -/
theorem Fills.frames_finish (h : w.Fills s)
    (hsized : s.close.Sized fun n => 1 ≤ n ∧ n ≤ frameCapacity) :
    w.finish.frames = (s.close.closed, none) := by
  have hflush := h.flush
  have hall : s.close.all = s.close.closed.flatten := by
    rw [Filling.all, Filling.opened_close, List.append_nil]
  have hsize := hflush.table.size_le
  have hknown : ∀ f ∈ s.close.closed, ∀ m ∈ f, m.weight ∈ w.flush.weights.toList := by
    intro f hf m hm
    rw [hflush.weights, hall]
    exact mem_weightsOf (List.mem_flatten_of_mem hf hm)
  have hlayout := framesFrom_consecutive hsize 0 hknown hsized.closed
  rw [← hflush.bytes] at hlayout
  have hsum : ((framesFrom w.flush.weights.toList 0 s.close.closed).map List.length).sum =
      w.flush.total := by
    rw [sum_length_framesFrom, hflush.total, hall]
  have hread := Reader.frames_complete hlayout (r := Reader.start w.flush.total) rfl hsum
  have hback := matchFrames_framesFrom hsize 0 hknown
  show (Reader.start w.flush.total).frames w.flush.bytes w.flush.weights = _
  rw [hread]
  exact congrArg (·, none) hback

theorem Fills.closedLength (h : w.Fills s) (hcap : ∀ f ∈ s.closed, f.length ≤ frameCapacity) :
    w.closedLength = framesSize (weightsOf s.all) s.closed := by
  show w.bytes.size = _
  rw [← Array.length_toList, h.bytes, h.weights]
  exact flatMap_frameBytes_length hcap

/-! ## Layout and size -/

/-- Whatever is appended and wherever frames are closed in between, the table holds the distinct
weights in order of first appearance, and the bytes are those of the frames of the matches appended,
each of them with its step and the position of its weight. A frame is closed exactly by the match
that fills it, or early with a match in it; so it holds at least one and no more than fit in. These
frames are read back from the stream, and without early ends all but the last are full. The closed
frames alone count for the length so far, every match for the number, and an entry is charged for
its fixed part, the bytes, the distinct weights and the hashes of its filters. -/
theorem performAll_layout (actions : List Action) (index : Int64) (now : Instant) (elapsed : Nat)
    (f : Fingerprint) :
    let w := empty.performAll actions
    let s := ({} : Filling).performAll actions
    let table := weightsOf (appended actions)
    let frames := s.close.closed
    let entry := ({ index, writer := w } : Draft).finish now elapsed
    (w.weights.toList = table ∧ w.finish.weights.toList = table ∧ table.Nodup ∧
      table.length ≤ 2 ^ 32) ∧
    (s.all = appended actions ∧ frames.flatten = appended actions ∧
      (∀ fr ∈ frames, 1 ≤ fr.length ∧ fr.length ≤ frameCapacity) ∧
      w.bytes.toList = (framesFrom table 0 s.closed).flatMap frameBytes ∧
      w.pending.toList = cellsFrom table (docBehind 0 s.closed.flatten) s.opened ∧
      w.finish.bytes.toList = (framesFrom table 0 frames).flatMap frameBytes ∧
      ∀ a, (w.perform a).closedLength ≠ w.closedLength ↔
        (∃ m, a = .append m ∧ w.pending.size + 1 = frameCapacity) ∨
          (a = .flush ∧ w.pending.size ≠ 0)) ∧
    (w.finish.frames = (frames, none) ∧
      ((∀ a ∈ actions, a ≠ .flush) → frames.map List.length =
        List.replicate ((appended actions).length / frameCapacity) frameCapacity ++
          if (appended actions).length % frameCapacity = 0 then []
          else [(appended actions).length % frameCapacity])) ∧
    w.total = (appended actions).length ∧ w.closedLength = framesSize table s.closed ∧
    w.finish.bytes.size = framesSize table frames ∧
    entry.sizeBytes = 96 + framesSize table frames + 4 * table.length ∧
    (entry.withFingerprint f).sizeBytes =
      96 + framesSize table frames + 4 * table.length + 8 * f.filterHashes.length := by
  intro w s table frames entry
  have hfills : w.Fills s := empty_fills.performAll actions
  have hflush := hfills.flush
  have hall : s.all = appended actions := Filling.all_performAll actions {}
  have hclose : s.close.all = appended actions := (Filling.all_close s).trans hall
  have hframes : frames.flatten = appended actions := by
    rw [← hclose, Filling.all, Filling.opened_close, List.append_nil]
  have hopen : s.Sized fun n => 1 ≤ n ∧ n ≤ frameCapacity :=
    (Filling.start_sized _).performAll (by decide) fun _ n hpos hlt => ⟨hpos, Nat.le_of_lt hlt⟩
  have hsized : s.close.Sized fun n => 1 ≤ n ∧ n ≤ frameCapacity :=
    hopen.close fun hne => ⟨List.length_pos_iff.2 hne, Nat.le_of_lt hopen.opened⟩
  have htable : w.weights.toList = table := by rw [hfills.weights, hall]
  have hweights : w.finish.weights.toList = table := by
    show w.flush.weights.toList = _
    rw [hflush.weights, hclose]
  have hlength : table.length = w.finish.weights.size := by rw [← hweights, Array.length_toList]
  have hsize : w.finish.bytes.size = framesSize table frames := by
    have h := hflush.closedLength fun fr hfr => (hsized.closed fr hfr).2
    rw [hclose] at h
    exact h
  refine ⟨⟨htable, hweights, htable ▸ hfills.table.nodup, ?_⟩,
    ⟨hall, hframes, hsized.closed, ?_, ?_, ?_, closes_iff w⟩,
    ⟨hfills.frames_finish hsized, fun hno => ?_⟩, ?_, ?_, hsize, ?_, ?_⟩
  · rw [hlength]
    exact hflush.table.size_le
  · rw [← htable]
    exact hfills.bytes
  · rw [← htable]
    exact hfills.pending
  · rw [← hweights]
    exact hflush.bytes
  · have hfull : s.Sized (· = frameCapacity) :=
      Filling.Sized.performAll (P := (· = frameCapacity)) rfl
        (fun hflush => absurd rfl (hno _ hflush)) (Filling.start_sized _)
    rw [← hall]
    exact hfull.closed_lengths
  · rw [hfills.total, hall]
  · have h := hfills.closedLength fun fr hfr => (hopen.closed fr hfr).2
    rwa [hall] at h
  · rw [← hsize, hlength]
    rfl
  · rw [← hsize, hlength]
    rfl

end Writer

end ResultCache
