/-
Byte counts for people. From 1024 bytes on a count is shown in tenths of the largest unit that it
reaches. Dividing doubles by 1024 leads to that unit and leaves no rest (`climb_exact`) as long as a
double holds the count, which it does for all counts below terabytes; so only the tenths are rounded.
They are rounded after the unit has been chosen, and just under the next unit they come to 1024.0 of
the smaller one (`formatBytes_in_tenths`, `short_of_a_megabyte`).
-/
import Mathlib.Data.List.Chain
import Mathlib.Data.List.Nodup
import ResultCache.Proofs.Number.Decimal
import ResultCache.Proofs.Number.Rounding
import ResultCache.Report.ByteUnits

namespace ResultCache.Report

/-! ## Units -/

theorem byteUnits_descend : byteUnits.Pairwise fun u v => v.bytes < u.bytes := by decide

theorem byteUnits_names : (byteUnits.map (·.name)).Nodup := by decide

theorem ByteUnit.bytes_pos : ∀ u ∈ byteUnits, 0 < u.bytes := by decide

/-- A unit below the largest has a next one, which is 1024 times as large. -/
theorem ByteUnit.next : ∀ u ∈ byteUnits, u.name ∈ ["KB", "MB", "GB"] →
    (∃ v ∈ byteUnits, v.bytes = 1024 * u.bytes) ∧ 1024 * u.bytes ≤ 2 ^ 40 := by decide

/-- The unit of a size is the largest that it reaches. -/
theorem unitFor?_eq_some {size : Nat} {u : ByteUnit} (h : unitFor? size = some u) :
    u ∈ byteUnits ∧ u.bytes ≤ size ∧ ∀ v ∈ byteUnits, v.bytes ≤ size → v.bytes ≤ u.bytes := by
  obtain ⟨hreached, before, after, hunits, hbefore⟩ := List.find?_eq_some_iff_append.1 h
  refine ⟨List.mem_of_find?_eq_some h, of_decide_eq_true hreached, fun v hv hle => ?_⟩
  rw [hunits, List.mem_append, List.mem_cons] at hv
  rcases hv with hv | rfl | hv
  · have := hbefore v hv
    simp only [Bool.not_eq_true', decide_eq_false_iff_not] at this
    exact absurd hle this
  · exact Nat.le_refl _
  · have hsorted := byteUnits_descend
    rw [hunits, List.pairwise_append, List.pairwise_cons] at hsorted
    exact Nat.le_of_lt (hsorted.2.1.1 v hv)

theorem exists_unitFor? {size : Nat} (h : 1024 ≤ size) : ∃ u, unitFor? size = some u := by
  rw [← Option.isSome_iff_exists, unitFor?, List.find?_isSome]
  exact ⟨⟨"KB", 1 <<< 10⟩, by simp [byteUnits], decide_eq_true h⟩

theorem unitFor?_of_largest {size : Nat} (h : 1 <<< 40 ≤ size) :
    unitFor? size = some ⟨"TB", 1 <<< 40⟩ := List.find?_cons_of_pos (decide_eq_true h)

/-- A size that is not shown in the largest unit is below the next one. -/
theorem lt_next_unit {size : Nat} {u : ByteUnit} (h : unitFor? size = some u)
    (hname : u.name ∈ ["KB", "MB", "GB"]) : size < 1024 * u.bytes ∧ size < 2 ^ 40 := by
  obtain ⟨hu, -, hlargest⟩ := unitFor?_eq_some h
  obtain ⟨⟨v, hv, hnext⟩, hbits⟩ := ByteUnit.next u hu hname
  have hpos := ByteUnit.bytes_pos u hu
  have hlt : size < 1024 * u.bytes := by
    by_contra hge
    have := hlargest v hv (by omega)
    omega
  exact ⟨hlt, by omega⟩

/-! ## Doubles -/

/-- A count of up to 53 bits is a double. -/
theorem measured_eq {bytes : UInt64} (h : bytes.toNat < 2 ^ 53) : measured bytes = bytes.toNat := by
  rw [measured, Double.units_ofNat h, Nat.shiftLeft_shiftRight]

/-- A larger count may be rounded, but not below 53 bits. -/
theorem two_pow_53_le_measured {bytes : UInt64} (h : 2 ^ 53 ≤ bytes.toNat) :
    2 ^ 53 ≤ measured bytes := by
  have hne : bytes.toNat ≠ 0 := by omega
  have hlog : 53 ≤ bytes.toNat.log2 := (Nat.le_log2 hne).2 h
  have hunits := Double.two_pow_log2_le_units_ofNat hne bytes.toNat_lt
  calc 2 ^ 53 ≤ 2 ^ bytes.toNat.log2 := Nat.pow_le_pow_right (by decide) hlog
    _ ≤ measured bytes := by
      rw [measured, Nat.shiftRight_eq_div_pow, Nat.le_div_iff_mul_le (Nat.two_pow_pos _),
        ← Nat.shiftLeft_eq]
      exact hunits

/-- Being rounded to a double moves no count into another unit. -/
theorem unitFor?_measured (bytes : UInt64) : unitFor? (measured bytes) = unitFor? bytes.toNat := by
  rcases Nat.lt_or_ge bytes.toNat (2 ^ 53) with hlt | hge
  · rw [measured_eq hlt]
  · have hmeasured := two_pow_53_le_measured hge
    have hlargest : 1 <<< 40 ≤ 2 ^ 53 := by decide
    rw [unitFor?_of_largest (Nat.le_trans hlargest hge),
      unitFor?_of_largest (Nat.le_trans hlargest hmeasured)]

/-! ## Dividing doubles -/

/-- Divides by 1024, in doubles, going up the units until less than 1024 is left or the largest unit
is reached. -/
def climb : Double → ByteUnit → List ByteUnit → Double × ByteUnit
  | size, u, [] => (size, u)
  | size, u, v :: larger =>
    if size.units < (Double.ofNat 1024).units then (size, u)
    else climb (size.div (Double.ofNat 1024)) v larger

/-- Each unit is 1024 times the one before it. -/
def Ascend (units : List ByteUnit) : Prop := units.IsChain fun u v => v.bytes = 1024 * u.bytes

/-- `size` is `n` in the `k`-th unit, without any rest. -/
structure IsQuotient (n k : Nat) (size : Double) (u : ByteUnit) : Prop where
  power : u.bytes = 2 ^ (10 * k)
  exact : size.units * u.bytes = n <<< Layout.double.finest

theorem Ascend.le_of_mem {u v : ByteUnit} {larger : List ByteUnit} (h : Ascend (u :: larger))
    (hv : v ∈ u :: larger) : u.bytes ≤ v.bytes := by
  induction larger generalizing u with
  | nil => rw [List.mem_singleton.1 hv]
  | cons w larger ih =>
    obtain ⟨hnext, hrest⟩ := List.isChain_cons_cons.1 h
    rcases List.mem_cons.1 hv with rfl | hv
    · exact Nat.le_refl _
    · have := ih hrest hv
      omega

namespace IsQuotient

variable {n k : Nat} {size : Double} {u v : ByteUnit}

theorem units_lt_iff (h : IsQuotient n k size u) :
    size.units < (Double.ofNat 1024).units ↔ n < 1024 * u.bytes := by
  have hpos : 0 < u.bytes := by
    rw [h.power]
    exact Nat.two_pow_pos _
  have hexact := h.exact
  rw [Nat.shiftLeft_eq] at hexact
  rw [Double.units_ofNat (by decide), Nat.shiftLeft_eq, ← Nat.mul_lt_mul_right hpos, hexact,
    Nat.mul_right_comm, Nat.mul_lt_mul_right (Nat.two_pow_pos _)]

/-- A division by 1024 leaves no rest. -/
theorem step (h : IsQuotient n k size u) (hn : n < 2 ^ 53)
    (hk : 10 * (k + 1) ≤ Layout.double.finest) (hv : v.bytes = 1024 * u.bytes) :
    IsQuotient n (k + 1) (size.div (Double.ofNat 1024)) v := by
  have hfinest : Layout.double.finest = 1074 := by decide
  obtain ⟨place, hplace⟩ := Nat.exists_eq_add_of_le hk
  have hpower : v.bytes = 2 ^ (10 * (k + 1)) := by
    rw [hv, h.power, Nat.mul_succ, Nat.pow_add, Nat.mul_comm]
  have hunits : size.units = n <<< (place + 10) := by
    have hexact := h.exact
    rw [h.power, hplace, Nat.shiftLeft_eq] at hexact
    apply Nat.eq_of_mul_eq_mul_right (Nat.two_pow_pos (10 * k))
    rw [hexact, Nat.shiftLeft_eq]
    ring
  have hbase : 1024 = 2 ^ 10 := by decide
  refine ⟨hpower, ?_⟩
  rw [hbase, Double.units_div_two_pow hunits hn (by decide) (by omega), hpower, hplace]
  simp only [Nat.shiftLeft_eq, Nat.pow_add]
  ring

end IsQuotient

/-- Going up the units leads to the largest one that `n` reaches and leaves no rest. -/
theorem climb_exact {n : Nat} (hn : n < 2 ^ 53) (larger : List ByteUnit) :
    ∀ {k : Nat} {size : Double} {u : ByteUnit}, IsQuotient n k size u → Ascend (u :: larger) →
    10 * (k + larger.length) ≤ Layout.double.finest → u.bytes ≤ n →
    ∃ j size' w, climb size u larger = (size', w) ∧ IsQuotient n j size' w ∧ w ∈ u :: larger ∧
      w.bytes ≤ n ∧ ∀ v ∈ u :: larger, v.bytes ≤ n → v.bytes ≤ w.bytes := by
  induction larger with
  | nil =>
    intro k size u h _ _ hu
    refine ⟨k, size, u, rfl, h, List.mem_singleton_self u, hu, fun v hv _ => ?_⟩
    rw [List.mem_singleton.1 hv]
  | cons w larger ih =>
    intro k size u h hascend hroom hu
    obtain ⟨hnext, hrest⟩ := List.isChain_cons_cons.1 hascend
    rw [List.length_cons] at hroom
    by_cases hstop : size.units < (Double.ofNat 1024).units
    · -- the units further up are out of reach
      have hlt := h.units_lt_iff.1 hstop
      rw [climb, if_pos hstop]
      refine ⟨k, size, u, rfl, h, List.mem_cons_self, hu, fun v hv hle => ?_⟩
      rcases List.mem_cons.1 hv with rfl | hv
      · exact Nat.le_refl _
      · have := Ascend.le_of_mem hrest hv
        omega
    · have hge := h.units_lt_iff.not.1 hstop
      rw [climb, if_neg hstop]
      obtain ⟨j, size', t, ht, hquot, hmem, hreached, hlargest⟩ :=
        ih (h.step hn (by omega) hnext) hrest (by omega) (by omega)
      refine ⟨j, size', t, ht, hquot, List.mem_cons_of_mem _ hmem, hreached, fun v hv hle => ?_⟩
      rcases List.mem_cons.1 hv with rfl | hv
      · have hw := hlargest w List.mem_cons_self (by omega)
        omega
      · exact hlargest v hv hle

/-- Dividing doubles leads to the unit of a count. -/
theorem climb_unitFor? {bytes : UInt64} (h : bytes.toNat < 2 ^ 53) {u : ByteUnit}
    (hunit : unitFor? bytes.toNat = some u) :
    ∃ size, climb (Double.ofNat bytes.toNat) ⟨"B", 1⟩ byteUnits.reverse = (size, u) ∧
      size.units * u.bytes = bytes.toNat <<< Layout.double.finest := by
  obtain ⟨hu, hreached, hlargest⟩ := unitFor?_eq_some hunit
  have hpos := ByteUnit.bytes_pos u hu
  have hascend : Ascend (⟨"B", 1⟩ :: byteUnits.reverse) := by
    unfold Ascend
    decide
  have hdistinct : ((⟨"B", 1⟩ :: byteUnits.reverse).map (·.bytes)).Nodup := by decide
  have hmem : u ∈ (⟨"B", 1⟩ : ByteUnit) :: byteUnits.reverse :=
    List.mem_cons_of_mem _ (List.mem_reverse.2 hu)
  have hstart : IsQuotient bytes.toNat 0 (Double.ofNat bytes.toNat) ⟨"B", 1⟩ :=
    ⟨rfl, by rw [Nat.mul_one, Double.units_ofNat h]⟩
  obtain ⟨j, size, w, hclimb, hquot, hw, hle, hmax⟩ :=
    climb_exact h byteUnits.reverse hstart hascend (by decide) (Nat.le_trans hpos hreached)
  have hbytes : w.bytes = u.bytes := by
    refine Nat.le_antisymm ?_ (hmax u hmem hreached)
    rcases List.mem_cons.1 hw with rfl | hw
    · exact hpos
    · exact hlargest w (List.mem_reverse.1 hw) hle
  obtain rfl : w = u := List.inj_on_of_nodup_map hdistinct hw hmem hbytes
  exact ⟨size, hclimb, hquot.exact⟩

/-! ## Texts -/

/-- So many tenths of a unit: a number with one decimal, and the unit. -/
def inTenths (t : Nat) (u : ByteUnit) : String :=
  decimal (t / 10) ++ "." ++ decimal (t % 10) ++ " " ++ u.name

theorem inTenths_toList (t : Nat) (u : ByteUnit) :
    (inTenths t u).toList =
      (decimal (t / 10)).toList ++ '.' :: ((decimal (t % 10)).toList ++ ' ' :: u.name.toList) := by
  simp [inTenths]

theorem inTenths_inj {t t' : Nat} {u u' : ByteUnit} (hu : u ∈ byteUnits) (hu' : u' ∈ byteUnits)
    (h : inTenths t u = inTenths t' u') : t = t' ∧ u = u' := by
  have hlist := congrArg String.toList h
  rw [inTenths_toList, inTenths_toList] at hlist
  have hpoint : ∀ rest : List Char, ∀ c ∈ ('.' :: rest).head?, Digit.ofChar? c = none := by
    rintro rest c ⟨⟩
    decide
  have hblank : ∀ rest : List Char, ∀ c ∈ (' ' :: rest).head?, Digit.ofChar? c = none := by
    rintro rest c ⟨⟩
    decide
  obtain ⟨hwhole, hrest⟩ := decimal_append_inj (hpoint _) (hpoint _) hlist
  obtain ⟨htenth, hname⟩ := decimal_append_inj (hblank _) (hblank _) (List.cons.inj hrest).2
  refine ⟨by omega, ?_⟩
  exact List.inj_on_of_nodup_map byteUnits_names hu hu' (String.toList_inj.1 (List.cons.inj hname).2)

theorem formatBytes_eq {bytes : UInt64} {u : ByteUnit} (h : unitFor? bytes.toNat = some u) :
    formatBytes bytes = inTenths (tenths (measured bytes) u) u := by
  unfold formatBytes
  dsimp only
  rw [unitFor?_measured, h]
  rfl

/-- From 1024 bytes on a count is shown with one decimal in the largest unit that it reaches, as 1.0
at least. Below terabytes it is shown as 1024.0 at most, and that exactly from a twentieth of the
unit below the next unit on. As long as a double holds the count, dividing doubles leads to the same
unit and leaves no rest, and what is shown is the quotient rounded to one decimal. -/
theorem formatBytes_in_tenths {bytes : UInt64} (h : 1024 ≤ bytes.toNat) :
    (∃ t, ∃ u ∈ byteUnits, formatBytes bytes = inTenths t u) ∧
    ∀ t, ∀ u ∈ byteUnits, formatBytes bytes = inTenths t u →
      (u.bytes ≤ bytes.toNat ∧ ∀ v ∈ byteUnits, v.bytes ≤ bytes.toNat → v.bytes ≤ u.bytes) ∧
      10 ≤ t ∧
      (u.name ∈ ["KB", "MB", "GB"] → t ≤ 10240 ∧
        (t = 10240 ↔ 20 * (1024 * u.bytes) ≤ 20 * bytes.toNat + u.bytes)) ∧
      (bytes.toNat < 2 ^ 53 → RoundsTo (bytes.toNat * 10) u.bytes t ∧
        ∃ size, climb (Double.ofNat bytes.toNat) ⟨"B", 1⟩ byteUnits.reverse = (size, u) ∧
          size.units * u.bytes = bytes.toNat <<< Layout.double.finest) := by
  obtain ⟨u, hunit⟩ := exists_unitFor? h
  have htext := formatBytes_eq hunit
  obtain ⟨hu, hreached, hlargest⟩ := unitFor?_eq_some hunit
  have hpos := ByteUnit.bytes_pos u hu
  have hrounds : RoundsTo (measured bytes * 10) u.bytes (tenths (measured bytes) u) :=
    divEven_roundsTo _ hpos
  have hmeasured : u.bytes ≤ measured bytes :=
    (unitFor?_eq_some ((unitFor?_measured bytes).trans hunit)).2.1
  refine ⟨⟨_, u, hu, htext⟩, fun t u' hu' hsame => ?_⟩
  obtain ⟨rfl, rfl⟩ := inTenths_inj hu hu' (htext.symm.trans hsame)
  refine ⟨⟨hreached, hlargest⟩, ?_, fun hname => ?_, fun hbits => ?_⟩
  · -- a whole unit is past the middle between 0.9 and 1.0
    exact (hrounds.succ_le_iff hpos 9).2 (.inl (by omega))
  · -- 1024.0 begins half a tenth below the next unit, 1024.1 half a tenth above it
    obtain ⟨hnext, hbits⟩ := lt_next_unit hunit hname
    rw [measured_eq (by omega)] at hrounds ⊢
    have hlast := hrounds.succ_le_iff hpos 10239
    have hbeyond := hrounds.succ_le_iff hpos 10240
    omega
  · rw [measured_eq hbits] at hrounds ⊢
    exact ⟨hrounds, climb_unitFor? hbits hunit⟩

/-- The largest count that is shown as 1023.9 KB. -/
theorem below_the_rounding :
    1024 ≤ (1048524 : UInt64).toNat ∧ formatBytes 1048524 = inTenths 10239 ⟨"KB", 1 <<< 10⟩ ∧
      RoundsTo (1048524 * 10) (1 <<< 10) 10239 := by
  have htext : formatBytes 1048524 = inTenths 10239 ⟨"KB", 1 <<< 10⟩ := by decide +kernel
  have hshown := (@formatBytes_in_tenths 1048524 (by decide)).2 10239 ⟨"KB", 1 <<< 10⟩
    (by simp [byteUnits]) htext
  exact ⟨by decide, htext, (hshown.2.2.2 (by decide)).1⟩

/-- One byte less than a megabyte is shown as 1024.0 of the smaller unit. -/
theorem short_of_a_megabyte :
    1024 ≤ (1048575 : UInt64).toNat ∧ formatBytes 1048575 = "1024.0 KB" ∧
      formatBytes 1048576 = "1.0 MB" := by
  decide +kernel

end ResultCache.Report
