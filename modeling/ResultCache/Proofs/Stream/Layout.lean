/-
The layout of a stream, said without a reader: a stream is a concatenation of frames, a frame is a
count followed by that many matches, and a match is a step and the position of a weight. Numbers may
be spelled longer than necessary. The documents are the running sums of the steps, carried on from
frame to frame.
-/
import ResultCache.Proofs.Stream.Number
import ResultCache.Stream.Writer

namespace ResultCache

open Varint

/-! ## Concatenation -/

/-- The bytes spell the items one after another, each of them as `P` has it. -/
inductive Consecutive {α : Type} (P : List UInt8 → α → Prop) : List UInt8 → List α → Prop where
  | nil : Consecutive P [] []
  | cons {bs rest : List UInt8} {a : α} {as : List α} :
      P bs a → Consecutive P rest as → Consecutive P (bs ++ rest) (a :: as)

namespace Consecutive

variable {α : Type} {P : List UInt8 → α → Prop}

theorem flatMap {f : α → List UInt8} {as : List α} (h : ∀ a ∈ as, P (f a) a) :
    Consecutive P (as.flatMap f) as := by
  induction as with
  | nil => exact .nil
  | cons a as ih =>
    rw [List.flatMap_cons]
    exact .cons (h a List.mem_cons_self) (ih fun a' ha' => h a' (List.mem_cons_of_mem _ ha'))

end Consecutive

/-! ## Frames -/

/-- A match of a frame, its weight at a position of a table of `size` weights. -/
inductive Cell.Spelled (size : Nat) : List UInt8 → Cell → Prop where
  | mk {bs bs' : List UInt8} {c : Cell} :
      Spells .word64 bs c.1 → Spells .word32 bs' c.2.toUInt64 → c.2.toNat < size →
      Spelled size (bs ++ bs') c

/-- A frame: how many matches it holds, at least one and no more than fit in, and the matches. -/
inductive Framed (size : Nat) : List UInt8 → List Cell → Prop where
  | mk {count : UInt64} {bs bs' : List UInt8} {cells : List Cell} :
      Spells .word32 bs count → count.toNat = cells.length → 1 ≤ cells.length →
      cells.length ≤ frameCapacity → Consecutive (Cell.Spelled size) bs' cells →
      Framed size (bs ++ bs') cells

theorem Framed.length_pos {size : Nat} {bs : List UInt8} {cells : List Cell}
    (h : Framed size bs cells) : 1 ≤ cells.length := by
  obtain ⟨-, -, hpos, -, -⟩ := h
  exact hpos

/-! ## Matches -/

/-- The document a step leads to, wrapping around at 64 bits. -/
def Cell.docAfter (doc : UInt64) (c : Cell) : UInt64 := doc + (Zigzag.decode c.1).toUInt64

/-- The document reached after some matches. -/
def docAfter (doc : UInt64) (cells : List Cell) : UInt64 := cells.foldl Cell.docAfter doc

/-- The matches that cells stand for, the document `doc` standing before them. -/
def matchesFrom (weights : Array UInt32) : UInt64 → List Cell → List Match
  | _, [] => []
  | doc, c :: cells =>
    ⟨c.docAfter doc, weights[c.2.toNat]?.getD 0⟩ :: matchesFrom weights (c.docAfter doc) cells

theorem docAfter_append (doc : UInt64) (cells cells' : List Cell) :
    docAfter doc (cells ++ cells') = docAfter (docAfter doc cells) cells' :=
  List.foldl_append

theorem matchesFrom_length (weights : Array UInt32) (cells : List Cell) :
    ∀ doc, (matchesFrom weights doc cells).length = cells.length := by
  induction cells with
  | nil => exact fun _ => rfl
  | cons c cells ih =>
    intro doc
    simp [matchesFrom, ih]

theorem matchesFrom_append (weights : Array UInt32) (cells cells' : List Cell) :
    ∀ doc, matchesFrom weights doc (cells ++ cells') =
      matchesFrom weights doc cells ++ matchesFrom weights (docAfter doc cells) cells' := by
  induction cells with
  | nil => exact fun _ => rfl
  | cons c cells ih =>
    intro doc
    simp [matchesFrom, docAfter, ih]

/-! ## Streams -/

/-- The bytes of a stream are frames, these hold as many matches as announced, and the matches are
`ms`. -/
def Stream.Carries (s : Stream) (ms : List Match) : Prop :=
  ∃ frames : List (List Cell), Consecutive (Framed s.weights.size) s.bytes.toList frames ∧
    (frames.map List.length).sum = s.total ∧ ms = matchesFrom s.weights 0 frames.flatten

end ResultCache
