/-
Number literals of JSON, as they stand in a text and as the number they mean. `Literal.read` takes
one off the front of a text and `Literal.chars` writes one. A literal without fraction and exponent
that fits 64 bits means an integer; any other means the double that its digits lead to by one
rounded product or quotient with a power of ten.
-/
import ResultCache.Json.Value
import ResultCache.Number.Digits
import ResultCache.Number.Shortest

namespace ResultCache.Json

/-! ## Literals -/

/-- The part of a number behind its `e`. -/
structure Exponent where
  negative : Bool
  digits : List Digit
  deriving DecidableEq, Repr

/-- A number as written. -/
structure Literal where
  negative : Bool := false
  whole : List Digit
  /-- The digits behind the point; none where there is no point. -/
  fraction : List Digit := []
  exponent : Option Exponent := none
  deriving DecidableEq, Repr

namespace Literal

/-- The text of a literal; an exponent always has a sign. -/
def chars (l : Literal) : List Char :=
  (if l.negative then ['-'] else []) ++ l.whole.map Digit.char ++
    (if l.fraction.isEmpty then [] else '.' :: l.fraction.map Digit.char) ++
    match l.exponent with
    | none => []
    | some e => 'e' :: (if e.negative then '-' else '+') :: e.digits.map Digit.char

/-! ## Reading -/

/-- Digits before the point: at least one, and no leading zero. -/
def wholePart (s : List Char) : Option (List Digit × List Char) :=
  match spanDigits s with
  | ([], _) => none
  | (d :: ds, rest) => if d = 0 ∧ ds ≠ [] then none else some (d :: ds, rest)

/-- The point and its digits, if a point follows. -/
def fractionPart : List Char → Option (List Digit × List Char)
  | '.' :: rest =>
    match spanDigits rest with
    | ([], _) => none
    | found => some found
  | s => some ([], s)

/-- The sign that may stand before the digits of an exponent. -/
def exponentSign : List Char → Bool × List Char
  | '+' :: rest => (false, rest)
  | '-' :: rest => (true, rest)
  | s => (false, s)

/-- The exponent, if one follows. -/
def exponentPart : List Char → Option (Option Exponent × List Char)
  | [] => some (none, [])
  | c :: rest =>
    if c = 'e' ∨ c = 'E' then
      let (negative, s) := exponentSign rest
      match spanDigits s with
      | ([], _) => none
      | (ds, r) => some (some ⟨negative, ds⟩, r)
    else some (none, c :: rest)

/-- The sign that may stand before a number. -/
def sign : List Char → Bool × List Char
  | '-' :: rest => (true, rest)
  | s => (false, s)

/-- The literal at the front of a text, and what follows it. -/
def read (s : List Char) : Option (Literal × List Char) := do
  let (negative, s) := sign s
  let (whole, s) ← wholePart s
  let (fraction, s) ← fractionPart s
  let (exponent, s) ← exponentPart s
  some ({ negative, whole, fraction, exponent }, s)

theorem wholePart_length {s r : List Char} {ds : List Digit} (h : wholePart s = some (ds, r)) :
    r.length < s.length := by
  unfold wholePart at h
  have hs := spanDigits_length s
  rcases hd : spanDigits s with ⟨_ | ⟨d, ds'⟩, rest⟩
  · rw [hd] at h; cases h
  · rw [hd] at h hs
    dsimp only [List.length_cons] at h hs
    by_cases hz : d = 0 ∧ ds' ≠ []
    · rw [if_pos hz] at h; cases h
    · rw [if_neg hz] at h; cases h
      omega

theorem fractionPart_length {s r : List Char} {ds : List Digit} (h : fractionPart s = some (ds, r)) :
    r.length ≤ s.length := by
  unfold fractionPart at h
  split at h
  · rename_i rest
    have hs := spanDigits_length rest
    split at h
    · cases h
    · simp only [Option.some.injEq] at h
      rw [h] at hs
      simp only [List.length_cons] at *
      omega
  · cases h; exact Nat.le_refl _

theorem exponentSign_length (s : List Char) : (exponentSign s).2.length ≤ s.length := by
  unfold exponentSign; split <;> simp

theorem exponentPart_length {s r : List Char} {e : Option Exponent}
    (h : exponentPart s = some (e, r)) : r.length ≤ s.length := by
  cases s with
  | nil => cases h; exact Nat.le_refl _
  | cons c rest =>
    unfold exponentPart at h
    dsimp only at h
    by_cases hc : c = 'e' ∨ c = 'E'
    · rw [if_pos hc] at h
      have h1 := exponentSign_length rest
      have h2 := spanDigits_length (exponentSign rest).2
      rcases hd : spanDigits (exponentSign rest).2 with ⟨_ | ⟨d, ds⟩, r'⟩
      · rw [hd] at h; cases h
      · rw [hd] at h h2; cases h
        rw [List.length_cons]
        dsimp only at h2
        omega
    · rw [if_neg hc] at h; cases h
      exact Nat.le_refl _

theorem sign_length (s : List Char) : (sign s).2.length ≤ s.length := by
  unfold sign; split <;> simp

/-- Reading a literal takes at least one character. -/
theorem read_length {s r : List Char} {l : Literal} (h : read s = some (l, r)) :
    r.length < s.length := by
  have h0 := sign_length s
  simp only [read, bind, Option.bind_eq_some_iff, Prod.exists, Option.some.injEq,
    Prod.mk.injEq] at h
  obtain ⟨_, _, h1, _, _, h2, _, _, h3, _, rfl⟩ := h
  have := wholePart_length h1
  have := fractionPart_length h2
  have := exponentPart_length h3
  omega

end Literal

/-! ## Meaning -/

namespace Literal

/-- The leading digits that 64 bits can take in, starting from `acc`, and the digits left over. -/
def gather (acc : Nat) : List Digit → Nat × List Digit
  | [] => (acc, [])
  | d :: ds => if acc * 10 + d.val < UInt64.size then gather (acc * 10 + d.val) ds else (acc, d :: ds)

/-- The significand of 64 bits and the power of ten it is to be multiplied by. Digits before the
point that do not fit count as zeros, digits behind it are dropped. -/
def scaled (l : Literal) : Nat × Int :=
  let (whole, more) := gather 0 l.whole
  -- the fraction goes on with the significand even where digits before the point are left over
  let (significand, dropped) := gather whole l.fraction
  (significand, (more.length : Int) - ((l.fraction.length : Int) - dropped.length))

/-- The largest power of ten that a double can take. -/
def largestPower : Nat := 308

/-- `d` times ten to the `e`. Powers below the smallest one available are divided off in turn, until
nothing is left. There is no result beyond the finite numbers. -/
def timesPower (d : Double) (e : Int) : Option Double :=
  if 0 ≤ e then
    if d.magnitude = 0 then some d
    else if largestPower < e then none
    else
      let product := d.mul (Double.ofNat (Nat.pow 10 e.toNat))
      if product.isFinite then some product else none
  else if -(largestPower : Int) ≤ e then some (d.div (Double.ofNat (Nat.pow 10 (-e).toNat)))
  else if d.magnitude = 0 then some d
  else timesPower (d.div (Double.ofNat (Nat.pow 10 largestPower))) (e + largestPower)
termination_by (-e).toNat
decreasing_by simp only [largestPower] at *; omega

/-- The double a literal means, unless it is too large for one. An exponent of more than 31 bits
leaves only zero, or nothing. -/
def double? (l : Literal) : Option Double :=
  let (significand, power) := l.scaled
  let magnitude :=
    match l.exponent with
    | none => timesPower (Double.ofNat significand) power
    | some e =>
      let n := ofDigits e.digits
      if n < 2147483648 then
        timesPower (Double.ofNat significand) (if e.negative then power - n else power + n)
      else if significand = 0 ∨ e.negative then some (Double.ofNat 0)
      else none
  magnitude.map (Double.withSign l.negative)

/-- The number a literal means: an integer if it is written as one, other than `-0`, and fits 64
bits; a double otherwise. -/
def number? (l : Literal) : Option Number :=
  let n := ofDigits l.whole
  if l.fraction.isEmpty && l.exponent.isNone then
    if l.negative then
      if 0 < n ∧ n ≤ 9223372036854775808 then some (.negative (Int64.ofInt (-n))) else l.double?.map .double
    else if n < UInt64.size then some (.natural n.toUInt64)
    else l.double?.map .double
  else l.double?.map .double

end Literal

/-! ## Writing -/

/-- How far the point of a floating-point number may lie before, and how far behind, the start of
its digits for the number to be written without an exponent. -/
structure PointRange where
  before : Int
  behind : Int
  deriving Repr

/-- A decimal of the given sign, always with a fraction or an exponent. -/
def Literal.ofDecimal (range : PointRange) (negative : Bool) (d : Decimal) : Literal :=
  let ds := ResultCache.digits d.digits
  let point := (ds.length : Int) + d.exponent
  if 0 ≤ d.exponent ∧ point ≤ range.behind then
    { negative, whole := ds ++ List.replicate d.exponent.toNat 0, fraction := [0] }
  else if 0 < point ∧ point ≤ range.behind then
    { negative, whole := ds.take point.toNat, fraction := ds.drop point.toNat }
  else if -range.before < point ∧ point ≤ 0 then
    { negative, whole := [0], fraction := List.replicate (-point).toNat 0 ++ ds }
  else
    let e := point - 1
    { negative, whole := ds.take 1, fraction := ds.drop 1,
      exponent := some ⟨decide (e < 0), ResultCache.digits e.natAbs⟩ }

/-- Doubles are written without exponent while their point lies less than five places before and at
most sixteen behind the start of their digits. -/
def doubleRange : PointRange := ⟨5, 16⟩

/-- Singles: less than six places before and at most thirteen behind. -/
def singleRange : PointRange := ⟨6, 13⟩

/-- A finite magnitude, with the fewest digits that read back. -/
def Literal.ofMagnitude (f : Layout) (range : PointRange) (negative : Bool) (magnitude : Nat) :
    Literal :=
  if magnitude = 0 then { negative, whole := [0], fraction := [0] }
  else Literal.ofDecimal range negative (f.shortest magnitude)

/-- The literal of a number. -/
def Number.literal : Number → Literal
  | .natural n => { whole := digits n.toNat }
  | .negative n => { negative := decide (n < 0), whole := digits n.toInt.natAbs }
  | .double d => Literal.ofMagnitude Layout.double doubleRange d.isNegative d.magnitude
  | .single s => Literal.ofMagnitude Layout.single singleRange s.isNegative s.magnitude

end ResultCache.Json
