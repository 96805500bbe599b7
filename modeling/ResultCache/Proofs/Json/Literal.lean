/-
Number literals, written and read back. A literal of the form that JSON asks for
(`Literal.WellFormed`) is read back from its text, whatever stands behind it that could not go on
with it (`Ends`); and the literal of every number has that form (`Number.literal_wellFormed`), for
the digits of a floating-point number do not lead with a zero where they stand before the point.
-/
import ResultCache.Json.Literal
import ResultCache.Proofs.Number.Decimal
import ResultCache.Proofs.Number.Shortest

namespace ResultCache.Json

/-- What stands behind a literal cannot go on with it. -/
def Ends (rest : List Char) : Prop :=
  ∀ c ∈ rest.head?, Digit.ofChar? c = none ∧ c ≠ '.' ∧ c ≠ 'e' ∧ c ≠ 'E'

theorem ends_nil : Ends [] := by simp [Ends]

theorem ends_cons {c : Char} {rest : List Char} :
    Ends (c :: rest) ↔ Digit.ofChar? c = none ∧ c ≠ '.' ∧ c ≠ 'e' ∧ c ≠ 'E' := by
  simp [Ends]

namespace Literal

/-! ## Parts -/

/-- The form of a literal: digits before the point, without a zero in front of others, and digits
behind the `e`. -/
structure WellFormed (l : Literal) : Prop where
  whole_ne_nil : l.whole ≠ []
  no_leading_zero : l.whole.head? = some 0 → l.whole = [0]
  exponent_digits : ∀ e ∈ l.exponent, e.digits ≠ []

/-- The text of the digits behind the point. -/
def fractionChars (ds : List Digit) : List Char :=
  if ds.isEmpty then [] else '.' :: ds.map Digit.char

/-- The text of the exponent. -/
def exponentChars : Option Exponent → List Char
  | none => []
  | some e => 'e' :: (if e.negative then '-' else '+') :: e.digits.map Digit.char

theorem chars_append (l : Literal) (rest : List Char) :
    l.chars ++ rest = (if l.negative then ['-'] else []) ++
      (l.whole.map Digit.char ++ (fractionChars l.fraction ++ (exponentChars l.exponent ++ rest))) := by
  obtain ⟨negative, whole, fraction, exponent⟩ := l
  cases exponent <;> simp [chars, fractionChars, exponentChars]

theorem head?_exponentChars (e : Option Exponent) {rest : List Char} (h : Ends rest) :
    ∀ c ∈ (exponentChars e ++ rest).head?, Digit.ofChar? c = none ∧ c ≠ '.' := by
  cases e with
  | none => exact fun c hc => ⟨(h c hc).1, (h c hc).2.1⟩
  | some e =>
    intro c hc
    obtain rfl : 'e' = c := Option.some.inj hc
    decide

theorem head?_fractionChars (ds : List Digit) {rest : List Char}
    (h : ∀ c ∈ rest.head?, Digit.ofChar? c = none) :
    ∀ c ∈ (fractionChars ds ++ rest).head?, Digit.ofChar? c = none := by
  cases ds with
  | nil => exact h
  | cons d ds =>
    intro c hc
    obtain rfl : '.' = c := Option.some.inj hc
    decide

/-! ## Reading back, part by part -/

theorem sign_append {negative : Bool} {s : List Char} (h : s.head? ≠ some '-') :
    sign ((if negative then ['-'] else []) ++ s) = (negative, s) := by
  cases negative with
  | true => rfl
  | false =>
    show sign s = (false, s)
    unfold sign
    split
    · exact absurd rfl h
    · rfl

theorem wholePart_append {ds : List Digit} {rest : List Char} (hne : ds ≠ [])
    (hzero : ds.head? = some 0 → ds = [0]) (h : ∀ c ∈ rest.head?, Digit.ofChar? c = none) :
    wholePart (ds.map Digit.char ++ rest) = some (ds, rest) := by
  rw [wholePart, spanDigits_map_char ds h]
  cases ds with
  | nil => exact absurd rfl hne
  | cons d ds =>
    refine if_neg ?_
    rintro ⟨rfl, hmore⟩
    exact hmore (List.cons.inj (hzero rfl)).2

theorem fractionPart_append {ds : List Digit} {rest : List Char}
    (h : ∀ c ∈ rest.head?, Digit.ofChar? c = none ∧ c ≠ '.') :
    fractionPart (fractionChars ds ++ rest) = some (ds, rest) := by
  cases ds with
  | nil =>
    show fractionPart rest = some ([], rest)
    unfold fractionPart
    split
    · exact absurd rfl (h '.' rfl).2
    · rfl
  | cons d ds =>
    show fractionPart ('.' :: ((d :: ds).map Digit.char ++ rest)) = _
    rw [fractionPart, spanDigits_map_char _ fun c hc => (h c hc).1]

theorem exponentPart_append {e : Option Exponent} {rest : List Char} (h : Ends rest)
    (hdigits : ∀ x ∈ e, x.digits ≠ []) :
    exponentPart (exponentChars e ++ rest) = some (e, rest) := by
  cases e with
  | none =>
    show exponentPart rest = some (none, rest)
    cases rest with
    | nil => rfl
    | cons c rest =>
      obtain ⟨-, -, he, hE⟩ := ends_cons.1 h
      simp [exponentPart, he, hE]
  | some e =>
    obtain ⟨negative, ds⟩ := e
    have hsign : exponentSign ((if negative then '-' else '+') :: (ds.map Digit.char ++ rest)) =
        (negative, ds.map Digit.char ++ rest) := by
      cases negative <;> rfl
    have hspan : spanDigits (ds.map Digit.char ++ rest) = (ds, rest) :=
      spanDigits_map_char ds fun c hc => (h c hc).1
    show exponentPart ('e' :: (if negative then '-' else '+') :: (ds.map Digit.char ++ rest)) = _
    rw [exponentPart, if_pos (.inl rfl), hsign]
    cases ds with
    | nil => exact absurd rfl (hdigits _ rfl)
    | cons d ds => simp only [hspan]

/-- A literal is read back from its text. -/
theorem read_chars {l : Literal} (h : l.WellFormed) {rest : List Char} (hrest : Ends rest) :
    read (l.chars ++ rest) = some (l, rest) := by
  obtain ⟨negative, whole, fraction, exponent⟩ := l
  obtain ⟨hne, hzero, hdigits⟩ := h
  dsimp only at hne hzero hdigits
  have hexponent := head?_exponentChars exponent hrest
  have hfraction := head?_fractionChars fraction fun c hc => (hexponent c hc).1
  have hsign : ∀ s : List Char, (whole.map Digit.char ++ s).head? ≠ some '-' := by
    intro s hs
    cases whole with
    | nil => exact hne rfl
    | cons d ds =>
      have hd : d.char = '-' := Option.some.inj hs
      have := congrArg Digit.ofChar? hd
      rw [Digit.ofChar?_char] at this
      cases this
  simp only [read, chars_append, sign_append (hsign _), wholePart_append hne hzero hfraction,
    fractionPart_append hexponent, exponentPart_append hrest hdigits, Option.bind_eq_bind,
    Option.bind_some]

/-! ## The literals of numbers -/

theorem wellFormed_digits (negative : Bool) (n : Nat) :
    WellFormed { negative, whole := digits n } where
  whole_ne_nil := digits_ne_nil n
  no_leading_zero := by
    intro h
    dsimp only at h ⊢
    rw [eq_zero_of_head?_digits h, digits]
    rfl
  exponent_digits := by simp

/-- A decimal is written in a literal unless it is zero with places before the point. -/
theorem wellFormed_ofDecimal (range : PointRange) (negative : Bool) {d : Decimal}
    (h : d.digits = 0 → d.exponent < 0) : WellFormed (ofDecimal range negative d) := by
  have hne : digits d.digits ≠ [] := digits_ne_nil _
  have hzero : (digits d.digits).head? = some 0 → d.exponent < 0 ∧ digits d.digits = [0] := by
    intro hhead
    have hdigits := eq_zero_of_head?_digits hhead
    exact ⟨h hdigits, (wellFormed_digits false _).no_leading_zero hhead⟩
  unfold ofDecimal
  generalize digits d.digits = ds at hne hzero ⊢
  obtain ⟨x, xs, rfl⟩ := List.exists_cons_of_ne_nil hne
  dsimp only
  split
  · rename_i hcase
    refine ⟨List.cons_ne_nil _ _, ?_, by simp⟩
    intro hhead
    have := (hzero hhead).1
    omega
  · split
    · rename_i hcase
      obtain ⟨k, hk⟩ : ∃ k, ((x :: xs).length + d.exponent).toNat = k + 1 :=
        ⟨_, (Nat.succ_pred_eq_of_pos (by omega)).symm⟩
      rw [hk]
      refine ⟨List.cons_ne_nil _ _, ?_, by simp⟩
      intro hhead
      obtain ⟨hexponent, hsingle⟩ := hzero hhead
      rw [hsingle, List.length_singleton] at hcase
      omega
    · split
      · exact ⟨List.cons_ne_nil _ _, fun _ => rfl, by simp⟩
      · refine ⟨List.cons_ne_nil _ _, ?_, ?_⟩
        · intro hhead
          rw [(hzero hhead).2]
          rfl
        · rintro e ⟨rfl⟩
          exact digits_ne_nil _

theorem wellFormed_ofMagnitude (f : Layout) (range : PointRange) (negative : Bool) (magnitude : Nat) :
    WellFormed (ofMagnitude f range negative magnitude) := by
  unfold ofMagnitude
  split
  · exact ⟨List.cons_ne_nil _ _, fun _ => rfl, by simp⟩
  · rename_i h
    exact wellFormed_ofDecimal range negative (f.shortest_exponent_neg (Nat.pos_of_ne_zero h))

end Literal

namespace Number

/-- Every number is written as a literal of the right form. -/
theorem literal_wellFormed (n : Number) : n.literal.WellFormed := by
  cases n with
  | natural n => exact Literal.wellFormed_digits false _
  | negative n => exact Literal.wellFormed_digits _ _
  | double d => exact Literal.wellFormed_ofMagnitude _ _ _ _
  | single s => exact Literal.wellFormed_ofMagnitude _ _ _ _

theorem number?_natural (n : UInt64) : (natural n).literal.number? = some (natural n) := by
  have hn : n.toNat < UInt64.size := n.toNat_lt
  simp [literal, Literal.number?, ofDigits_digits, hn]

theorem number?_negative {n : Int64} (h : n < 0) : (negative n).literal.number? = some (negative n) := by
  have hneg : n.toInt < 0 := Int64.lt_iff_toInt_lt.1 h
  have hmin : -9223372036854775808 ≤ n.toInt := n.le_toInt
  have habs : 0 < n.toInt.natAbs ∧ n.toInt.natAbs ≤ 9223372036854775808 := by omega
  have hvalue : -(n.toInt.natAbs : Int) = n.toInt := by omega
  simp only [literal, Literal.number?, ofDigits_digits, h, decide_true, List.isEmpty_nil,
    Option.isNone_none, Bool.and_self, if_true]
  rw [if_pos habs, hvalue, Int64.ofInt_toInt]

end Number

end ResultCache.Json
