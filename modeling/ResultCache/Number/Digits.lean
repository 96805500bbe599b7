/-
Decimal digits of natural numbers, most significant first.
-/

namespace ResultCache

/-- A decimal digit. -/
abbrev Digit := Fin 10

namespace Digit

/-- The character of a digit. -/
def char (d : Digit) : Char := Char.ofNat (48 + d.val)

/-- The digit a character stands for. -/
def ofChar? (c : Char) : Option Digit :=
  if h : 48 ≤ c.toNat ∧ c.toNat < 58 then some ⟨c.toNat - 48, by omega⟩ else none

end Digit

/-- The decimal digits of `n`; zero has one. -/
def digits (n : Nat) : List Digit :=
  if h : n < 10 then [⟨n, h⟩] else digits (n / 10) ++ [⟨n % 10, by omega⟩]
termination_by n
decreasing_by omega

/-- The number with these digits. -/
def ofDigits (ds : List Digit) : Nat := ds.foldl (fun n d => n * 10 + d.val) 0

/-- The digits at the front of a text, and what follows them. -/
def spanDigits : List Char → List Digit × List Char
  | [] => ([], [])
  | c :: rest =>
    match Digit.ofChar? c with
    | some d => let (ds, r) := spanDigits rest; (d :: ds, r)
    | none => ([], c :: rest)

theorem spanDigits_length (s : List Char) :
    (spanDigits s).2.length + (spanDigits s).1.length = s.length := by
  induction s with
  | nil => rfl
  | cons c rest ih =>
    simp only [spanDigits]
    split
    · simp only [List.length_cons]; omega
    · simp

/-- The decimal text of `n`. -/
def decimal (n : Nat) : String := String.ofList ((digits n).map Digit.char)

end ResultCache
