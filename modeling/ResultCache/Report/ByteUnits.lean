/-
Byte counts for people: in binary units with one decimal. The unit is the largest that the count
reaches; only then is the quotient rounded, a half going to the even tenth.
-/
import ResultCache.Number.Binary
import ResultCache.Number.Digits

namespace ResultCache.Report

/-- A binary unit. -/
structure ByteUnit where
  name : String
  bytes : Nat
  deriving Repr

/-- The units in use, largest first. -/
def byteUnits : List ByteUnit :=
  [⟨"TB", 1 <<< 40⟩, ⟨"GB", 1 <<< 30⟩, ⟨"MB", 1 <<< 20⟩, ⟨"KB", 1 <<< 10⟩]

/-- A count of bytes as a double has it: exact up to 53 bits. -/
def measured (bytes : UInt64) : Nat :=
  (Double.ofNat bytes.toNat).units >>> Layout.double.finest

/-- The largest unit that `size` reaches. -/
def unitFor? (size : Nat) : Option ByteUnit := byteUnits.find? fun u => decide (u.bytes ≤ size)

/-- `size` in tenths of a unit. -/
def tenths (size : Nat) (u : ByteUnit) : Nat := divEven (size * 10) u.bytes

/-- A count of bytes in the unit that suits it. -/
def formatBytes (bytes : UInt64) : String :=
  let size := measured bytes
  match unitFor? size with
  | none => decimal bytes.toNat ++ " B"
  | some u =>
    let t := tenths size u
    decimal (t / 10) ++ "." ++ decimal (t % 10) ++ " " ++ u.name

end ResultCache.Report
