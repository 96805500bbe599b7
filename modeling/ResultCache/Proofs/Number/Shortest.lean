/-
The search for the fewest decimal digits of a floating-point number. Zero does not round to a
positive number, so no grid gives it, and the search can end with zero digits only where it gives up,
behind the point (`shortest_exponent_neg`).
-/
import ResultCache.Number.Shortest

namespace ResultCache.Layout

theorem parts_pos (f : Layout) {magnitude : Nat} (h : 0 < magnitude) :
    0 < (f.parts magnitude).1 := by
  unfold parts
  dsimp only
  split
  · exact h
  · rw [Nat.one_shiftLeft]
    have := Nat.two_pow_pos f.fractionBits
    omega

/-- Zero rounds to no positive number. -/
theorem rounding_low_pos (f : Layout) {magnitude : Nat} (h : 0 < magnitude) :
    0 < (f.rounding magnitude).low := by
  have hm := f.parts_pos h
  unfold rounding
  generalize f.parts magnitude = parts at hm ⊢
  obtain ⟨m, shift⟩ := parts
  dsimp only at hm ⊢
  have hpow := Nat.two_pow_pos shift
  have hvalue : 4 * 2 ^ shift ≤ 4 * m * 2 ^ shift := Nat.mul_le_mul_right _ (by omega)
  simp only [Nat.shiftLeft_eq]
  split <;> omega

namespace Rounding

variable {r : Rounding}

theorem not_contains_zero (h : 0 < r.low) {den : Nat} (hden : 0 < den) : r.contains 0 den = false := by
  have := Nat.mul_pos h hden
  unfold contains
  split <;> simp only [decide_eq_false_iff_not] <;> omega

theorem gridPoint?_pos (h : 0 < r.low) {step den d : Nat} (hden : 0 < den)
    (hd : r.gridPoint? step den = some d) : 0 < d := by
  unfold gridPoint? at hd
  dsimp only at hd
  generalize r.value * den / step = below at hd
  rcases Nat.eq_zero_or_pos below with rfl | hbelow
  · rw [Nat.zero_mul, not_contains_zero h hden] at hd
    simp only [Bool.false_and, Bool.false_eq_true, if_false] at hd
    split at hd <;> cases hd
    exact Nat.succ_pos 0
  · repeat' split at hd
    all_goals cases hd
    all_goals omega

/-- Only the point at which the search gives up is zero. -/
theorem coarsest_exponent (h : 0 < r.low) (quarters : Nat) {grids : Nat} : ∀ {e : Int},
    (r.coarsest quarters grids e).digits = 0 → (r.coarsest quarters grids e).exponent = e - grids := by
  induction grids with
  | zero => intro e _; simp [coarsest]
  | succ grids ih =>
    intro e
    have hden : 0 < (if 0 ≤ e then (quarters * Nat.pow 10 e.toNat, 1)
        else (quarters, Nat.pow 10 (-e).toNat)).2 := by
      split
      · exact Nat.one_pos
      · exact Nat.pow_pos (by omega)
    rw [coarsest]
    dsimp only
    split
    · rename_i d hd
      intro hzero
      exact absurd hzero (Nat.ne_of_gt (gridPoint?_pos h hden hd))
    · intro hzero
      rw [ih hzero]
      omega

end Rounding

theorem shortest_exponent_neg (f : Layout) {magnitude : Nat} (h : 0 < magnitude)
    (hdigits : (f.shortest magnitude).digits = 0) : (f.shortest magnitude).exponent < 0 := by
  have htop : 2 ≤ f.topExponent := Nat.le_add_left _ _
  rw [shortest, Rounding.coarsest_exponent (f.rounding_low_pos h) _ hdigits]
  omega

end ResultCache.Layout
