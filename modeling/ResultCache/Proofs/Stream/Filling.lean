/-
Which match stands in which frame, and in which bytes. A match stands in a frame as the step from
the document before it and the position of its weight in the table (`Cell.of`); `framesSize` tells
how long frames are. `Filling` is what appending and closing do to the frames: none is empty, none
too long, and without early ends all closed frames are full.
-/
import ResultCache.Proofs.Stream.Packing
import ResultCache.Proofs.Stream.Shortest

namespace ResultCache

open Varint

/-! ## Matches as cells -/

/-- The document behind some matches, `doc` standing before them. -/
def docBehind (doc : UInt64) (ms : List Match) : UInt64 := ms.foldl (fun _ m => m.doc) doc

/-- A match as a frame holds it: the step from the document before it, and where its weight stands
in the table. -/
def Cell.of (table : List UInt32) (doc : UInt64) (m : Match) : Cell :=
  (Zigzag.encode (m.doc - doc).toInt64, (table.idxOf m.weight).toUInt32)

def cellsFrom (table : List UInt32) : UInt64 → List Match → List Cell
  | _, [] => []
  | doc, m :: ms => Cell.of table doc m :: cellsFrom table m.doc ms

/-- The cells of frames, the steps going on from one frame to the next. -/
def framesFrom (table : List UInt32) : UInt64 → List (List Match) → List (List Cell)
  | _, [] => []
  | doc, f :: fs => cellsFrom table doc f :: framesFrom table (docBehind doc f) fs

variable {table : List UInt32}

theorem docBehind_append (doc : UInt64) (ms ms' : List Match) :
    docBehind doc (ms ++ ms') = docBehind (docBehind doc ms) ms' :=
  List.foldl_append

theorem cellsFrom_length (ms : List Match) : ∀ doc, (cellsFrom table doc ms).length = ms.length := by
  induction ms with
  | nil => exact fun _ => rfl
  | cons m ms ih =>
    intro doc
    rw [cellsFrom, List.length_cons, List.length_cons, ih]

theorem cellsFrom_append (ms ms' : List Match) : ∀ doc, cellsFrom table doc (ms ++ ms') =
    cellsFrom table doc ms ++ cellsFrom table (docBehind doc ms) ms' := by
  induction ms with
  | nil => exact fun _ => rfl
  | cons m ms ih =>
    intro doc
    rw [List.cons_append, cellsFrom, cellsFrom, ih]
    rfl

theorem framesFrom_append (fs fs' : List (List Match)) : ∀ doc, framesFrom table doc (fs ++ fs') =
    framesFrom table doc fs ++ framesFrom table (docBehind doc fs.flatten) fs' := by
  induction fs with
  | nil => exact fun _ => rfl
  | cons f fs ih =>
    intro doc
    rw [List.cons_append, framesFrom, framesFrom, ih, List.flatten_cons, docBehind_append]
    rfl

/-- Further weights behind a table leave the cells of weights it has as they are. -/
theorem cellsFrom_extend (more : List UInt32) {ms : List Match} : ∀ doc,
    (∀ m ∈ ms, m.weight ∈ table) → cellsFrom (table ++ more) doc ms = cellsFrom table doc ms := by
  induction ms with
  | nil => exact fun _ _ => rfl
  | cons m ms ih =>
    intro doc hknown
    rw [cellsFrom, cellsFrom, ih _ fun m' hm' => hknown m' (List.mem_cons_of_mem _ hm'), Cell.of,
      List.idxOf_append_of_mem (hknown m List.mem_cons_self)]
    rfl

theorem framesFrom_extend (more : List UInt32) {fs : List (List Match)} : ∀ doc,
    (∀ f ∈ fs, ∀ m ∈ f, m.weight ∈ table) →
      framesFrom (table ++ more) doc fs = framesFrom table doc fs := by
  induction fs with
  | nil => exact fun _ _ => rfl
  | cons f fs ih =>
    intro doc hknown
    rw [framesFrom, framesFrom, ih _ fun f' hf' => hknown f' (List.mem_cons_of_mem _ hf'),
      cellsFrom_extend more _ (hknown f List.mem_cons_self)]

theorem sum_length_framesFrom (fs : List (List Match)) : ∀ doc : UInt64,
    ((framesFrom table doc fs).map List.length).sum = fs.flatten.length := by
  induction fs with
  | nil => exact fun _ => rfl
  | cons f fs ih =>
    intro doc
    rw [framesFrom, List.map_cons, List.sum_cons, ih, cellsFrom_length, List.flatten_cons,
      List.length_append]

/-! ## The length of frames -/

theorem frameBytes_length {cells : List Cell} (h : cells.length ≤ frameCapacity) :
    (frameBytes cells).length =
      1 + (cells.map fun c => encodedLength c.1 + encodedLength c.2.toUInt64).sum := by
  have hval : cells.length.toUInt64.toNat = cells.length :=
    Nat.mod_eq_of_lt (Nat.lt_of_le_of_lt h (by decide))
  have hcount : encode cells.length.toUInt64 = [cells.length.toUInt8] := by
    unfold encode
    rw [hval]
    exact groups_of_lt (Nat.lt_of_le_of_lt h (by decide))
  rw [frameBytes, hcount, List.length_append, List.length_flatMap]
  simp [Cell.bytes, encode_length]

/-- How many bytes frames take up: for each frame one for its count, and for each match those of its
step and of the position of its weight. -/
def framesSize (table : List UInt32) (fs : List (List Match)) : Nat :=
  ((framesFrom table 0 fs).map fun cells =>
    1 + (cells.map fun c => encodedLength c.1 + encodedLength c.2.toUInt64).sum).sum

theorem length_le_of_mem_framesFrom {fs : List (List Match)} {cells : List Cell} : ∀ {doc},
    (∀ f ∈ fs, f.length ≤ frameCapacity) → cells ∈ framesFrom table doc fs →
    cells.length ≤ frameCapacity := by
  induction fs with
  | nil =>
    intro doc _ h
    cases h
  | cons f fs ih =>
    intro doc hfs h
    rcases List.mem_cons.1 h with rfl | h
    · rw [cellsFrom_length]
      exact hfs f List.mem_cons_self
    · exact ih (fun f' hf' => hfs f' (List.mem_cons_of_mem _ hf')) h

theorem flatMap_frameBytes_length {fs : List (List Match)}
    (h : ∀ f ∈ fs, f.length ≤ frameCapacity) :
    ((framesFrom table 0 fs).flatMap frameBytes).length = framesSize table fs := by
  rw [List.length_flatMap, framesSize]
  congr 1
  exact List.map_congr_left fun cells hc => frameBytes_length (length_le_of_mem_framesFrom h hc)

/-! ## Which match stands in which frame -/

/-- The matches of the closed frames, and those of the open one. -/
structure Filling where
  closed : List (List Match) := []
  opened : List Match := []

namespace Filling

/-- All matches, in order. -/
def all (s : Filling) : List Match := s.closed.flatten ++ s.opened

/-- The open frame is closed if there is a match in it. -/
def close (s : Filling) : Filling :=
  if s.opened = [] then s else { closed := s.closed ++ [s.opened] }

def put (m : Match) (s : Filling) : Filling := { s with opened := s.opened ++ [m] }

/-- A match goes into the open frame, which is closed once it is full. -/
def append (m : Match) (s : Filling) : Filling :=
  if (s.put m).opened.length = frameCapacity then (s.put m).close else s.put m

def perform : Writer.Action → Filling → Filling
  | .append m, s => s.append m
  | .flush, s => s.close

def performAll (actions : List Writer.Action) (s : Filling) : Filling :=
  actions.foldl (fun s a => s.perform a) s

variable {s : Filling}

theorem close_of_nil (h : s.opened = []) : s.close = s := if_pos h

theorem close_of_ne_nil (h : s.opened ≠ []) : s.close = { closed := s.closed ++ [s.opened] } :=
  if_neg h

theorem all_put (m : Match) (s : Filling) : (s.put m).all = s.all ++ [m] :=
  (List.append_assoc _ _ _).symm

theorem all_close (s : Filling) : s.close.all = s.all := by
  by_cases h : s.opened = []
  · rw [close_of_nil h]
  · rw [close_of_ne_nil h]
    simp [all]

theorem opened_close (s : Filling) : s.close.opened = [] := by
  by_cases h : s.opened = []
  · rw [close_of_nil h, h]
  · rw [close_of_ne_nil h]

theorem all_append (m : Match) (s : Filling) : (s.append m).all = s.all ++ [m] := by
  rw [append]
  split
  · rw [all_close, all_put]
  · exact all_put m s

theorem all_performAll (actions : List Writer.Action) : ∀ s : Filling,
    (s.performAll actions).all = s.all ++ Writer.appended actions := by
  induction actions with
  | nil => exact fun s => (List.append_nil _).symm
  | cons a actions ih =>
    intro s
    cases a with
    | append m =>
      have h := ih (s.append m)
      rw [all_append, List.append_assoc] at h
      exact h
    | flush =>
      have h := ih s.close
      rw [all_close] at h
      exact h

/-! ### Sizes of frames -/

/-- Between any two actions the closed frames have the size that `P` asks for, and the open one has
room for a match. -/
structure Sized (P : Nat → Prop) (s : Filling) : Prop where
  closed : ∀ f ∈ s.closed, P f.length
  opened : s.opened.length < frameCapacity

theorem start_sized (P : Nat → Prop) : Sized P {} := ⟨fun _ h => (List.not_mem_nil h).elim, by decide⟩

theorem Sized.close {P : Nat → Prop} (h : Sized P s) (hP : s.opened ≠ [] → P s.opened.length) :
    Sized P s.close := by
  by_cases hnil : s.opened = []
  · rwa [close_of_nil hnil]
  · rw [close_of_ne_nil hnil]
    refine ⟨fun f hf => ?_, (by decide : 0 < frameCapacity)⟩
    rcases List.mem_append.1 hf with hf | hf
    · exact h.closed f hf
    · rw [List.mem_singleton.1 hf]
      exact hP hnil

theorem Sized.append {P : Nat → Prop} (h : Sized P s) (hP : P frameCapacity) (m : Match) :
    Sized P (s.append m) := by
  have hlen : (s.put m).opened.length = s.opened.length + 1 := List.length_append
  have hroom := h.opened
  rw [Filling.append]
  by_cases hfull : (s.put m).opened.length = frameCapacity
  · have hne : (s.put m).opened ≠ [] := List.ne_nil_of_length_eq_add_one hlen
    rw [if_pos hfull, close_of_ne_nil hne]
    refine ⟨fun f hf => ?_, (by decide : 0 < frameCapacity)⟩
    rcases List.mem_append.1 hf with hf | hf
    · exact h.closed f hf
    · rw [List.mem_singleton.1 hf, hfull]
      exact hP
  · rw [if_neg hfull]
    exact ⟨h.closed, by omega⟩

/-- A full frame has to have the size that is asked for, and if frames are closed early, so has
every smaller one. -/
theorem Sized.performAll {P : Nat → Prop} (hfull : P frameCapacity) {actions : List Writer.Action} :
    ∀ {s : Filling}, (.flush ∈ actions → ∀ n, 1 ≤ n → n < frameCapacity → P n) → Sized P s →
    Sized P (s.performAll actions) := by
  induction actions with
  | nil => exact fun _ h => h
  | cons a actions ih =>
    intro s hearly h
    have hrest := fun hmem => hearly (List.mem_cons_of_mem a hmem)
    cases a with
    | append m => exact ih hrest (h.append hfull m)
    | flush =>
      refine ih hrest (h.close fun hne => ?_)
      exact hearly List.mem_cons_self _ (List.length_pos_iff.2 hne) h.opened

/-- Full frames and a rest that is not full: a division with remainder. -/
theorem Sized.closed_lengths (h : Sized (· = frameCapacity) s) :
    s.close.closed.map List.length =
      List.replicate (s.all.length / frameCapacity) frameCapacity ++
        if s.all.length % frameCapacity = 0 then [] else [s.all.length % frameCapacity] := by
  have hfull : s.closed.map List.length = List.replicate s.closed.length frameCapacity := by
    refine List.eq_replicate_iff.2 ⟨List.length_map _, fun n hn => ?_⟩
    obtain ⟨f, hf, rfl⟩ := List.mem_map.1 hn
    exact h.closed f hf
  have hall : s.all.length = frameCapacity * s.closed.length + s.opened.length := by
    rw [all, List.length_append, List.length_flatten, hfull, List.sum_replicate_nat, Nat.mul_comm]
  have hroom := h.opened
  have hdiv : s.all.length / frameCapacity = s.closed.length := by
    rw [hall, Nat.mul_add_div (by decide), Nat.div_eq_of_lt hroom, Nat.add_zero]
  have hmod : s.all.length % frameCapacity = s.opened.length := by
    rw [hall, Nat.mul_add_mod, Nat.mod_eq_of_lt hroom]
  rw [hdiv, hmod, ← hfull]
  by_cases hnil : s.opened = []
  · rw [close_of_nil hnil, hnil]
    simp
  · have hpos : s.opened.length ≠ 0 := fun hzero => hnil (List.eq_nil_of_length_eq_zero hzero)
    rw [close_of_ne_nil hnil, if_neg hpos, List.map_append]
    rfl

end Filling

end ResultCache
