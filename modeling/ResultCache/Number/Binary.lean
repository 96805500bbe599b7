/-
Binary floating-point numbers as bit patterns, and their arithmetic in exact natural numbers. A
`Layout` gives the two field widths; `Layout.nearest` rounds a quotient to the nearest number of the
layout, a tie going to the even one. `Double` and `Single` are the layouts of 64 and 32 bits.
-/

namespace ResultCache

/-- The quotient to the nearest whole number, a half going to the even neighbour. -/
def divEven (num den : Nat) : Nat :=
  let q := num / den
  let r := num % den
  if 2 * r < den then q else if den < 2 * r then q + 1 else q + q % 2

/-! ## Layouts -/

/-- The field widths of a floating-point number. -/
structure Layout where
  fractionBits : Nat
  exponentBits : Nat
  deriving DecidableEq, Repr

namespace Layout

def double : Layout := ⟨52, 11⟩

def single : Layout := ⟨23, 8⟩

/-- Every number of the layout is a multiple of the `finest`-th power of one half. -/
def finest (f : Layout) : Nat := (1 <<< (f.exponentBits - 1)) - 2 + f.fractionBits

/-- The magnitude bits of infinity. -/
def infinity (f : Layout) : Nat := ((1 <<< f.exponentBits) - 1) <<< f.fractionBits

/-- The magnitude bits of a quiet NaN. -/
def quietNaN (f : Layout) : Nat := f.infinity + 1 <<< (f.fractionBits - 1)

/-- The sign bit. -/
def signBit (f : Layout) : Nat := 1 <<< (f.fractionBits + f.exponentBits)

/-- The magnitude bits of the number nearest to `num / den`, infinity when that is too large. -/
def nearest (f : Layout) (num den : Nat) : Nat :=
  let units := num <<< f.finest
  let shift := (units / den).log2 - f.fractionBits
  min (shift <<< f.fractionBits + divEven units (den <<< shift)) f.infinity

/-- A finite magnitude as significand and power of two, counted in the finest unit. -/
def parts (f : Layout) (magnitude : Nat) : Nat × Nat :=
  let e := magnitude >>> f.fractionBits
  if e = 0 then (magnitude, 0)
  else (magnitude % (1 <<< f.fractionBits) + 1 <<< f.fractionBits, e - 1)

/-- A finite magnitude in the finest unit. -/
def units (f : Layout) (magnitude : Nat) : Nat :=
  let (m, shift) := f.parts magnitude
  m <<< shift

end Layout

/-! ## Doubles and singles -/

/-- A number of 64 bits, by its bits. -/
structure Double where
  bits : UInt64
  deriving DecidableEq, Repr, Inhabited

/-- A number of 32 bits, by its bits. -/
structure Single where
  bits : UInt32
  deriving DecidableEq, Repr, Inhabited

namespace Double

def ofMagnitude (negative : Bool) (magnitude : Nat) : Double :=
  ⟨(if negative then Layout.double.signBit + magnitude else magnitude).toUInt64⟩

def isNegative (d : Double) : Bool := decide (Layout.double.signBit ≤ d.bits.toNat)

def magnitude (d : Double) : Nat := d.bits.toNat % Layout.double.signBit

def isFinite (d : Double) : Bool := decide (d.magnitude < Layout.double.infinity)

/-- The number nearest to `num / den`. -/
def ofQuotient (num den : Nat) : Double := ofMagnitude false (Layout.double.nearest num den)

/-- The number nearest to `n`. -/
def ofNat (n : Nat) : Double := ofQuotient n 1

/-- The magnitude in the finest unit of the layout. -/
def units (d : Double) : Nat := Layout.double.units d.magnitude

/-- The quotient of two magnitudes. -/
def div (a b : Double) : Double := ofQuotient a.units b.units

/-- The product of two magnitudes. -/
def mul (a b : Double) : Double := ofQuotient (a.units * b.units) (1 <<< (2 * Layout.double.finest))

/-- The number with the given sign. -/
def withSign (negative : Bool) (d : Double) : Double := ofMagnitude negative d.magnitude

end Double

namespace Single

def ofMagnitude (negative : Bool) (magnitude : Nat) : Single :=
  ⟨(if negative then Layout.single.signBit + magnitude else magnitude).toUInt32⟩

def isNegative (s : Single) : Bool := decide (Layout.single.signBit ≤ s.bits.toNat)

def magnitude (s : Single) : Nat := s.bits.toNat % Layout.single.signBit

def isFinite (s : Single) : Bool := decide (s.magnitude < Layout.single.infinity)

/-- The number nearest to `n`. -/
def ofInt (n : Int) : Single := ofMagnitude (decide (n < 0)) (Layout.single.nearest n.natAbs 1)

/-- The number nearest to a double; one that is too large becomes infinite. -/
def ofDouble (d : Double) : Single :=
  if d.isFinite then
    ofMagnitude d.isNegative (Layout.single.nearest d.units (1 <<< Layout.double.finest))
  else if d.magnitude = Layout.double.infinity then
    ofMagnitude d.isNegative Layout.single.infinity
  else ofMagnitude d.isNegative Layout.single.quietNaN

end Single

end ResultCache
