/-
Packing matches. Matches are gathered into frames of at most `frameCapacity`; a frame is its count
followed by, for every match, the zigzag form of the step from the document before it and the
position of its weight in the stream's table of distinct weights, all as variable-length numbers.
Documents need not be sorted: steps wrap around at 64 bits.
-/
import ResultCache.Match
import ResultCache.Stream.Varint
import ResultCache.Stream.Zigzag
import Std.Data.HashMap

namespace ResultCache

/-- The most matches a frame holds. -/
def frameCapacity : Nat := 32

/-- A packed stream of matches. -/
structure Stream where
  /-- The frames, one after another. -/
  bytes : Array UInt8 := #[]
  /-- The distinct weights, in order of first appearance. -/
  weights : Array UInt32 := #[]
  /-- How many matches the frames hold. -/
  total : Nat := 0
  deriving DecidableEq, Repr, Inhabited

/-- A match as a frame holds it: zigzag step and weight position. -/
abbrev Cell := UInt64 × UInt32

/-- The bytes of one match in a frame. -/
def Cell.bytes (c : Cell) : List UInt8 := Varint.encode c.1 ++ Varint.encode c.2.toUInt64

/-- The bytes of a frame. -/
def frameBytes (cells : List Cell) : List UInt8 :=
  Varint.encode cells.length.toUInt64 ++ cells.flatMap Cell.bytes

/-- A stream being packed. -/
structure Writer where
  /-- The frames closed so far. -/
  bytes : Array UInt8 := #[]
  weights : Array UInt32 := #[]
  /-- Where each weight stands in `weights`. -/
  slots : Std.HashMap UInt32 UInt32 := {}
  /-- The matches of the open frame. -/
  pending : Array Cell := #[]
  lastDoc : UInt64 := 0
  total : Nat := 0
  deriving Inhabited

namespace Writer

/-- A writer nothing has been appended to. -/
def empty : Writer := {}

/-- The position of `weight` in the table, where it is put if it is new. Positions are counted in
32 bits, which is enough for all weights there are. -/
def intern (weight : UInt32) (w : Writer) : UInt32 × Writer :=
  match w.slots[weight]? with
  | some slot => (slot, w)
  | none =>
    let slot := w.weights.size.toUInt32
    (slot, { w with weights := w.weights.push weight, slots := w.slots.insert weight slot })

/-- Closes the open frame, if it holds any match. -/
def flush (w : Writer) : Writer :=
  if w.pending.isEmpty then w
  else { w with bytes := w.bytes ++ frameBytes w.pending.toList, pending := #[] }

/-- Appends one match, closing the frame it fills. -/
def append (m : Match) (w : Writer) : Writer :=
  let (slot, w) := w.intern m.weight
  let step := Zigzag.encode (m.doc - w.lastDoc).toInt64
  let w := { w with pending := w.pending.push (step, slot), lastDoc := m.doc, total := w.total + 1 }
  if w.pending.size = frameCapacity then w.flush else w

/-- Appends matches in order. -/
def appendAll (ms : List Match) (w : Writer) : Writer := ms.foldl (fun w m => w.append m) w

/-- The bytes of the closed frames. -/
def closedLength (w : Writer) : Nat := w.bytes.size

/-- Whether nothing has been appended. -/
def isEmpty (w : Writer) : Bool := w.total == 0

/-- Closes the last frame and hands the stream over. -/
def finish (w : Writer) : Stream :=
  let w := w.flush
  { bytes := w.bytes, weights := w.weights, total := w.total }

end Writer

/-- The stream that holds exactly these matches. -/
def Stream.ofMatches (ms : List Match) : Stream := (Writer.empty.appendAll ms).finish

end ResultCache
