/-
The fewest decimal digits that read back as a given floating-point number. The reals that round to
the number form an interval; of the decimal grids, from coarse to fine, the first one with a point
in the interval is taken, and on it the point nearest to the number.
-/
import ResultCache.Number.Binary

namespace ResultCache

/-- A decimal number: `digits` times the power of ten `exponent`. -/
structure Decimal where
  digits : Nat
  exponent : Int
  deriving DecidableEq, Repr, Inhabited

namespace Layout

/-- The reals that round to a number, in quarters of the finest unit: the number itself, the two
ends, and whether the ends belong to them. -/
structure Rounding where
  low : Nat
  value : Nat
  high : Nat
  closed : Bool
  deriving Repr

/-- The interval of a finite, positive magnitude. Below a power of two the numbers stand twice as
close. -/
def rounding (f : Layout) (magnitude : Nat) : Rounding :=
  let (m, shift) := f.parts magnitude
  let value := (4 * m) <<< shift
  -- the number below a power of two is half as far away, unless it is subnormal
  let below := if m = 1 <<< f.fractionBits ∧ 0 < shift then 1 <<< shift else 2 <<< shift
  { low := value - below, value, high := value + 2 <<< shift, closed := m % 2 == 0 }

/-- Whether the quotient `num / den` lies in the interval. -/
def Rounding.contains (r : Rounding) (num den : Nat) : Bool :=
  if r.closed then decide (r.low * den ≤ num ∧ num ≤ r.high * den)
  else decide (r.low * den < num ∧ num < r.high * den)

/-- A point of the grid of `step / den` in the interval, the nearest to the value. -/
def Rounding.gridPoint? (r : Rounding) (step den : Nat) : Option Nat :=
  let d := r.value * den / step
  let low := r.contains (d * step) den
  let high := r.contains ((d + 1) * step) den
  if low && high then
    let toLow := r.value * den - d * step
    let toHigh := (d + 1) * step - r.value * den
    some (if toLow < toHigh then d else if toHigh < toLow then d + 1 else d + d % 2)
  else if low then some d
  else if high then some (d + 1)
  else none

/-- The coarsest of the grids of ten to the `e`, `e - 1`, and so on, that has a point in the
interval, and that point. -/
def Rounding.coarsest (r : Rounding) (quarters : Nat) : Nat → Int → Decimal
  | 0, e => ⟨0, e⟩
  | grids + 1, e =>
    let (step, den) := if 0 ≤ e then (quarters * Nat.pow 10 e.toNat, 1) else (quarters, Nat.pow 10 (-e).toNat)
    match r.gridPoint? step den with
    | some d => ⟨d, e⟩
    | none => r.coarsest quarters grids (e - 1)

/-- The largest power of ten that a finite number can reach. -/
def topExponent (f : Layout) : Nat := (1 <<< (f.exponentBits - 1)) * 3 / 10 + 2

/-- The decimal with the fewest digits that rounds to a finite, positive magnitude. -/
def shortest (f : Layout) (magnitude : Nat) : Decimal :=
  let top := f.topExponent
  (f.rounding magnitude).coarsest (4 <<< f.finest) (2 * top + 2 * f.fractionBits) top

end Layout

end ResultCache
