/-
Rounding to whole numbers and to the numbers of a layout. `divEven` gives the whole number nearest to
a quotient, the even one where two are as near (`RoundsTo`). The nearest number of a layout is the
quotient rounded at the last place that the significand has room for (`units_nearest`). What a
significand can hold stays as it is (`units_nearest_of_exact`), so that whole numbers up to 53 bits
are doubles and dividing a double by a power of two is exact; and nothing falls below the power of
two under it (`two_pow_log2_le_units`).
-/
import Mathlib.Tactic.Ring
import ResultCache.Number.Binary

namespace ResultCache

/-! ## Whole numbers -/

/-- `q` is the whole number nearest to `num / den`; where another one is as near, `q` is even. -/
structure RoundsTo (num den q : Nat) : Prop where
  near : ∀ k : Nat, (q * den - num : Int).natAbs ≤ (k * den - num : Int).natAbs
  even : ∀ k : Nat, k ≠ q → (k * den - num : Int).natAbs = (q * den - num : Int).natAbs → q % 2 = 0

namespace RoundsTo

variable {num den q : Nat}

/-- Only one whole number is nearer than half a step. -/
theorem of_half (hhalf : 2 * (q * den - num : Int).natAbs ≤ den)
    (htie : 2 * (q * den - num : Int).natAbs = den → q % 2 = 0) : RoundsTo num den q := by
  have hfar : ∀ k : Nat, k ≠ q → den ≤ (k * den - q * den : Int).natAbs := by
    intro k hk
    rcases Nat.lt_or_gt_of_ne hk with hlt | hgt
    · have := Nat.mul_le_mul_right den hlt
      rw [Nat.succ_mul] at this
      omega
    · have := Nat.mul_le_mul_right den hgt
      rw [Nat.succ_mul] at this
      omega
  constructor
  · intro k
    by_cases hk : k = q
    · rw [hk]
    · have := hfar k hk
      omega
  · intro k hk heq
    have := hfar k hk
    exact htie (by omega)

/-- A quotient is rounded to `k + 1` or more from the middle between `k` and `k + 1` on, and in the
very middle only if `k + 1` is even. -/
theorem succ_le_iff (h : RoundsTo num den q) (hden : 0 < den) (k : Nat) :
    k + 1 ≤ q ↔ 2 * (k * den) + den < 2 * num ∨ 2 * (k * den) + den = 2 * num ∧ k % 2 = 1 := by
  have hsucc : (k + 1) * den = k * den + den := Nat.succ_mul k den
  constructor
  · intro hle
    have hq : (k + 1) * den ≤ q * den := Nat.mul_le_mul_right den hle
    have hnear := h.near k
    rcases Nat.lt_or_ge (2 * (k * den) + den) (2 * num) with hlt | hge
    · exact .inl hlt
    · -- not beyond the middle, so that `k` is as near
      have heq : (k + 1) * den = q * den := by omega
      have hk : k + 1 = q := Nat.eq_of_mul_eq_mul_right hden heq
      have heven := h.even k (by omega) (by omega)
      exact .inr ⟨by omega, by omega⟩
  · intro hmid
    by_contra hlt
    have hq : q * den ≤ k * den := Nat.mul_le_mul_right den (by omega)
    have hnear := h.near (k + 1)
    have heven := h.even (k + 1) (by omega)
    have hcast : ((k + 1 : Nat) : Int) * den = (k : Int) * den + den := by exact_mod_cast hsucc
    rw [hcast] at hnear heven
    have heq : q * den = k * den := by omega
    have hk : q = k := Nat.eq_of_mul_eq_mul_right hden heq
    omega

end RoundsTo

theorem divEven_roundsTo (num : Nat) {den : Nat} (hden : 0 < den) :
    RoundsTo num den (divEven num den) := by
  have hnum : num / den * den + num % den = num := Nat.div_add_mod' num den
  have hrest : num % den < den := Nat.mod_lt num hden
  have hsucc : ((num / den + 1 : Nat) : Int) * den = (num / den : Nat) * den + den := by
    exact_mod_cast Nat.succ_mul (num / den) den
  unfold divEven
  dsimp only
  split
  · exact .of_half (by omega) (by omega)
  · split
    · exact .of_half (by omega) (by omega)
    · -- in the middle the step goes to the even side
      rcases Nat.mod_two_eq_zero_or_one (num / den) with heven | hodd
      · rw [heven, Nat.add_zero]
        exact .of_half (by omega) (by omega)
      · rw [hodd]
        exact .of_half (by omega) (by omega)

theorem divEven_mul (q : Nat) {den : Nat} (hden : 0 < den) : divEven (q * den) den = q := by
  simp [divEven, hden]

theorem div_le_divEven (num den : Nat) : num / den ≤ divEven num den := by
  unfold divEven
  dsimp only
  split
  · exact Nat.le_refl _
  · split <;> omega

theorem divEven_le (num den : Nat) : divEven num den ≤ num / den + 1 := by
  unfold divEven
  dsimp only
  split
  · omega
  · split <;> omega

/-! ## Numbers of a layout -/

namespace Layout

variable (f : Layout)

/-- Where the last place of a significand stands that has room for `num / den`, counted from the
finest unit. -/
def lastPlace (num den : Nat) : Nat := (num <<< f.finest / den).log2 - f.fractionBits

/-- The magnitude of a significand at a place, which has its leading bit unless the place is the
finest. One that overflows is half as large a place further up. -/
theorem units_add {place m : Nat} (hm : m ≤ 2 * 2 ^ f.fractionBits)
    (hlead : 2 ^ f.fractionBits ≤ m ∨ place = 0) :
    f.units (place <<< f.fractionBits + m) = m <<< place := by
  have hpos := Nat.two_pow_pos f.fractionBits
  unfold units parts
  simp only [Nat.shiftLeft_eq, Nat.shiftRight_eq_div_pow, Nat.one_mul]
  generalize 2 ^ f.fractionBits = p at *
  rw [Nat.mul_comm place, Nat.mul_add_div hpos, Nat.mul_add_mod]
  rcases Nat.lt_or_ge m p with hlt | hge
  · obtain rfl : place = 0 := by omega
    rw [Nat.div_eq_of_lt hlt]
    simp
  · obtain ⟨d, rfl⟩ := Nat.exists_eq_add_of_le hge
    rcases Nat.lt_or_ge d p with hlt | hfull
    · have hdiv : (p + d) / p = 1 := by
        rw [Nat.add_div_left d hpos, Nat.div_eq_of_lt hlt]
      rw [hdiv, Nat.add_mod_left, Nat.mod_eq_of_lt hlt, if_neg (Nat.succ_ne_zero place)]
      simp [Nat.add_comm]
    · obtain rfl : d = p := by omega
      have hdiv : (d + d) / d = 2 := by
        rw [Nat.add_div_left d hpos, Nat.div_self hpos]
      rw [hdiv, Nat.add_mod_left, Nat.mod_self, if_neg (Nat.succ_ne_zero _)]
      dsimp only
      rw [Nat.zero_add, Nat.add_sub_assoc (by decide), Nat.pow_succ]
      ring

theorem div_lastPlace (num den : Nat) :
    num <<< f.finest / (den <<< f.lastPlace num den) =
      num <<< f.finest / den / 2 ^ f.lastPlace num den := by
  rw [Nat.shiftLeft_eq den, Nat.div_div_eq_div_mul]

/-- A quotient cut off at its last place fits into the significand. -/
theorem div_lastPlace_lt (num den : Nat) :
    num <<< f.finest / (den <<< f.lastPlace num den) < 2 * 2 ^ f.fractionBits := by
  have hlog : (num <<< f.finest / den).log2 + 1 ≤ f.fractionBits + 1 + f.lastPlace num den := by
    unfold lastPlace
    omega
  rw [div_lastPlace, Nat.div_lt_iff_lt_mul (Nat.two_pow_pos _), ← Nat.pow_succ', ← Nat.pow_add]
  exact Nat.lt_of_lt_of_le Nat.lt_log2_self (Nat.pow_le_pow_right (by decide) hlog)

/-- Above the finest place the significand has its leading bit. -/
theorem le_div_lastPlace {num den : Nat} (h : f.lastPlace num den ≠ 0) :
    2 ^ f.fractionBits ≤ num <<< f.finest / (den <<< f.lastPlace num den) := by
  have hlog : (num <<< f.finest / den).log2 = f.fractionBits + f.lastPlace num den := by
    unfold lastPlace at h ⊢
    omega
  have hne : num <<< f.finest / den ≠ 0 := by
    intro hzero
    rw [hzero, Nat.log2_zero] at hlog
    omega
  rw [div_lastPlace, Nat.le_div_iff_mul_le (Nat.two_pow_pos _), ← Nat.pow_add, ← hlog]
  exact Nat.log2_self_le hne

/-- The nearest number of a layout is the quotient rounded at its last place. -/
theorem units_nearest {num den : Nat} (hroom : f.lastPlace num den + 2 < 2 ^ f.exponentBits) :
    f.units (f.nearest num den) =
      divEven (num <<< f.finest) (den <<< f.lastPlace num den) <<< f.lastPlace num den := by
  have hcut := f.div_lastPlace_lt num den
  have hle := divEven_le (num <<< f.finest) (den <<< f.lastPlace num den)
  have hge := div_le_divEven (num <<< f.finest) (den <<< f.lastPlace num den)
  have hlead : 2 ^ f.fractionBits ≤ divEven (num <<< f.finest) (den <<< f.lastPlace num den) ∨
      f.lastPlace num den = 0 := by
    by_cases hzero : f.lastPlace num den = 0
    · exact .inr hzero
    · exact .inl (Nat.le_trans (f.le_div_lastPlace hzero) hge)
  have hfinite : f.lastPlace num den <<< f.fractionBits +
      divEven (num <<< f.finest) (den <<< f.lastPlace num den) ≤ f.infinity := by
    have hmul := Nat.mul_le_mul_right (2 ^ f.fractionBits)
      (show f.lastPlace num den + 2 ≤ 2 ^ f.exponentBits - 1 by omega)
    rw [Nat.add_mul] at hmul
    rw [infinity, Nat.one_shiftLeft, Nat.shiftLeft_eq _ f.fractionBits,
      Nat.shiftLeft_eq _ f.fractionBits]
    omega
  rw [← f.units_add (by omega) hlead]
  unfold nearest
  dsimp only
  exact congrArg f.units (Nat.min_eq_left hfinite)

/-- What a significand can hold is not changed by rounding. -/
theorem units_nearest_of_exact {num den m place : Nat} (hden : 0 < den)
    (hexact : num <<< f.finest = m <<< place * den) (hm : m < 2 * 2 ^ f.fractionBits)
    (hroom : place + 2 < 2 ^ f.exponentBits) :
    f.units (f.nearest num den) = m <<< place := by
  have hquot : num <<< f.finest / den = m <<< place := by
    rw [hexact, Nat.mul_div_cancel _ hden]
  have hplace : f.lastPlace num den ≤ place := by
    have hlt : m <<< place < 2 ^ (f.fractionBits + 1 + place) := by
      rw [Nat.shiftLeft_eq, Nat.pow_add, Nat.pow_succ']
      exact Nat.mul_lt_mul_of_pos_right hm (Nat.two_pow_pos _)
    unfold lastPlace
    rw [hquot]
    by_cases hzero : m <<< place = 0
    · rw [hzero, Nat.log2_zero]
      omega
    · have := (Nat.log2_lt hzero).2 hlt
      omega
  obtain ⟨k, hk⟩ := Nat.exists_eq_add_of_le hplace
  have hsplit : m <<< place = m * 2 ^ k * 2 ^ f.lastPlace num den := by
    rw [hk, Nat.shiftLeft_eq, Nat.pow_add]
    ring
  have hstep : 0 < den <<< f.lastPlace num den := by
    rw [Nat.shiftLeft_eq]
    exact Nat.mul_pos hden (Nat.two_pow_pos _)
  rw [f.units_nearest (by omega), hexact, hsplit, Nat.mul_assoc, Nat.mul_comm _ den,
    ← Nat.shiftLeft_eq den, divEven_mul _ hstep, Nat.shiftLeft_eq]

/-- What is rounded does not fall below the power of two under it. -/
theorem two_pow_log2_le_units {num den : Nat} (h : num <<< f.finest / den ≠ 0)
    (hroom : f.lastPlace num den + 2 < 2 ^ f.exponentBits) :
    2 ^ (num <<< f.finest / den).log2 ≤ f.units (f.nearest num den) := by
  have hge := div_le_divEven (num <<< f.finest) (den <<< f.lastPlace num den)
  have hplace : f.lastPlace num den ≤ (num <<< f.finest / den).log2 := Nat.sub_le _ _
  obtain ⟨k, hk⟩ := Nat.exists_eq_add_of_le' hplace
  have hcut : 2 ^ k ≤ num <<< f.finest / (den <<< f.lastPlace num den) := by
    rw [div_lastPlace, Nat.le_div_iff_mul_le (Nat.two_pow_pos _), ← Nat.pow_add, ← hk]
    exact Nat.log2_self_le h
  rw [f.units_nearest hroom, hk, Nat.pow_add, Nat.shiftLeft_eq]
  exact Nat.mul_le_mul_right _ (Nat.le_trans hcut hge)

end Layout

/-! ## Doubles -/

namespace Double

theorem magnitude_ofMagnitude {m : Nat} (h : m < Layout.double.signBit) :
    (ofMagnitude false m).magnitude = m := by
  have hword : Layout.double.signBit ≤ 2 ^ 64 := by decide
  have hbits : (ofMagnitude false m).bits.toNat = m :=
    Nat.mod_eq_of_lt (Nat.lt_of_lt_of_le h hword)
  rw [magnitude, hbits, Nat.mod_eq_of_lt h]

theorem units_ofQuotient (num den : Nat) :
    (ofQuotient num den).units = Layout.double.units (Layout.double.nearest num den) := by
  have hinfinity : Layout.double.infinity < Layout.double.signBit := by decide
  have hlt : Layout.double.nearest num den < Layout.double.signBit :=
    Nat.lt_of_le_of_lt (Nat.min_le_right _ _) hinfinity
  rw [units, ofQuotient, magnitude_ofMagnitude hlt]

/-- Whole numbers up to 53 bits are doubles. -/
theorem units_ofNat {n : Nat} (h : n < 2 ^ 53) : (ofNat n).units = n <<< Layout.double.finest := by
  rw [ofNat, units_ofQuotient]
  exact Layout.units_nearest_of_exact _ Nat.one_pos (Nat.mul_one _).symm h (by decide)

/-- Dividing by a power of two is exact as long as the last place does not fall below the finest
unit. -/
theorem units_div_two_pow {d : Double} {n place k : Nat} (hd : d.units = n <<< (place + k))
    (hn : n < 2 ^ 53) (hk : k < 53) (hplace : place + 2 < 2 ^ 11) :
    (d.div (ofNat (2 ^ k))).units = n <<< place := by
  have hpow : (2 : Nat) ^ k < 2 ^ 53 := Nat.pow_lt_pow_right (by decide) hk
  rw [div, units_ofQuotient, hd, units_ofNat hpow]
  refine Layout.units_nearest_of_exact _ ?_ ?_ hn hplace
  · rw [Nat.shiftLeft_eq]
    exact Nat.mul_pos (Nat.two_pow_pos k) (Nat.two_pow_pos _)
  · simp only [Nat.shiftLeft_eq, Nat.pow_add]
    ring

/-- As a double, a whole number of 64 bits does not fall below the power of two under it. -/
theorem two_pow_log2_le_units_ofNat {n : Nat} (hn : n ≠ 0) (h : n < 2 ^ 64) :
    2 ^ n.log2 <<< Layout.double.finest ≤ (ofNat n).units := by
  have hpos : n <<< Layout.double.finest ≠ 0 := by
    rw [Nat.shiftLeft_eq]
    exact Nat.mul_ne_zero hn (Nat.two_pow_pos _).ne'
  have hlog : (n <<< Layout.double.finest).log2 = n.log2 + Layout.double.finest := by
    rw [Nat.log2_eq_iff hpos, Nat.shiftLeft_eq, Nat.pow_add, Nat.add_right_comm, Nat.pow_add]
    exact ⟨Nat.mul_le_mul_right _ (Nat.log2_self_le hn),
      Nat.mul_lt_mul_of_pos_right Nat.lt_log2_self (Nat.two_pow_pos _)⟩
  have hbits : n.log2 < 64 := (Nat.log2_lt hn).2 h
  have hle := @Layout.two_pow_log2_le_units Layout.double n 1
  rw [Nat.div_one, hlog, Nat.pow_add, ← Nat.shiftLeft_eq] at hle
  rw [ofNat, units_ofQuotient]
  refine hle hpos ?_
  rw [Layout.lastPlace, Nat.div_one, hlog]
  show n.log2 + 1074 - 52 + 2 < 2 ^ 11
  omega

end Double

end ResultCache
