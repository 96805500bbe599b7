/-
A place in a byte sequence from which numbers are read one after another. A read that fails leaves
the cursor where it was.
-/
import ResultCache.Stream.Varint

namespace ResultCache

/-- A place in a byte sequence. -/
structure Cursor where
  bytes : Array UInt8
  position : Nat
  deriving DecidableEq, Repr

namespace Cursor

open Varint

/-- The start of `bytes`. -/
def start (bytes : Array UInt8) : Cursor := ⟨bytes, 0⟩

/-- Whether every byte has been read. -/
def atEnd (c : Cursor) : Bool := decide (c.bytes.size ≤ c.position)

/-- The unread bytes a number can depend on: one more than the longest number has. -/
def window (c : Cursor) : List UInt8 :=
  (c.bytes.extract c.position (c.position + (Width.word64.maxBytes + 1))).toList

/-- The next number and the cursor behind it. -/
def next (w : Width) (c : Cursor) : Except Damage (UInt64 × Cursor) := do
  let (v, n) ← decode w c.window
  .ok (v, { c with position := c.position + n })

/-- Reads the next number; on failure the cursor stays. -/
def read (w : Width) (c : Cursor) : Except Damage UInt64 × Cursor :=
  match c.next w with
  | .ok (v, c') => (.ok v, c')
  | .error e => (.error e, c)

end Cursor

end ResultCache
