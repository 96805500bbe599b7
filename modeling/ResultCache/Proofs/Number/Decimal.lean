/-
Decimal text, read back. The digits of a number give the number again, and a text that begins with
them is cut right behind them, so that different numbers have different texts.
-/
import Mathlib.Logic.Function.Basic
import ResultCache.Number.Digits

namespace ResultCache

theorem ofDigits_digits (n : Nat) : ofDigits (digits n) = n := by
  fun_induction digits n with
  | case1 n h => exact Nat.zero_add n
  | case2 n h ih =>
    rw [ofDigits, List.foldl_append]
    show ofDigits (digits (n / 10)) * 10 + n % 10 = n
    rw [ih]
    omega

theorem digits_ne_nil (n : Nat) : digits n ≠ [] := by
  rw [digits]
  split <;> simp

/-- Only zero begins with a zero. -/
theorem eq_zero_of_head?_digits {n : Nat} (h : (digits n).head? = some 0) : n = 0 := by
  fun_induction digits n with
  | case1 n hn => exact congrArg Fin.val (Option.some.inj h)
  | case2 n hn ih =>
    rw [List.head?_append, List.head?_eq_some_head (digits_ne_nil _), Option.some_or,
      ← List.head?_eq_some_head] at h
    have := ih h
    omega

namespace Digit

@[simp] theorem char_toNat (d : Digit) : d.char.toNat = 48 + d.val := by
  have hvalid : (48 + d.val).isValidChar := .inl (by omega)
  rw [char, Char.ofNat, dif_pos hvalid]
  rfl

@[simp] theorem ofChar?_char (d : Digit) : ofChar? d.char = some d := by
  simp only [ofChar?, char_toNat]
  rw [dif_pos (by omega)]
  simp

end Digit

/-- Digits are read up to the first character that is none. -/
theorem spanDigits_map_char (ds : List Digit) {rest : List Char}
    (h : ∀ c ∈ rest.head?, Digit.ofChar? c = none) :
    spanDigits (ds.map Digit.char ++ rest) = (ds, rest) := by
  induction ds with
  | nil =>
    cases rest with
    | nil => rfl
    | cons c rest =>
      rw [List.map_nil, List.nil_append, spanDigits, h c rfl]
  | cons d ds ih => simp [spanDigits, ih]

theorem decimal_toList (n : Nat) : (decimal n).toList = (digits n).map Digit.char :=
  String.toList_ofList

/-- The number in front of a text, if what follows does not begin with a digit. -/
theorem spanDigits_decimal (n : Nat) {rest : List Char}
    (h : ∀ c ∈ rest.head?, Digit.ofChar? c = none) :
    spanDigits ((decimal n).toList ++ rest) = (digits n, rest) := by
  rw [decimal_toList, spanDigits_map_char (digits n) h]

/-- Two numbers in front of texts that do not begin with a digit can be told apart. -/
theorem decimal_append_inj {n k : Nat} {rest rest' : List Char}
    (h : ∀ c ∈ rest.head?, Digit.ofChar? c = none) (h' : ∀ c ∈ rest'.head?, Digit.ofChar? c = none)
    (hsame : (decimal n).toList ++ rest = (decimal k).toList ++ rest') : n = k ∧ rest = rest' := by
  have hspan : (digits n, rest) = (digits k, rest') := by
    rw [← spanDigits_decimal n h, hsame, spanDigits_decimal k h']
  obtain ⟨hdigits, hrest⟩ := Prod.mk.inj hspan
  refine ⟨?_, hrest⟩
  rw [← ofDigits_digits n, hdigits, ofDigits_digits]

theorem decimal_injective : Function.Injective decimal := by
  intro n k h
  have hsame : (decimal n).toList ++ [] = (decimal k).toList ++ [] := by rw [h]
  exact (decimal_append_inj (by simp) (by simp) hsame).1

end ResultCache
