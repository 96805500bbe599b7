/-
Tokens, written and read back. A string is escaped character by character, and each character is
read back whatever it is; so a token that a writer puts out (`Token.Written`) is the next one that is
read from a text that begins with its own (`lex_chars`). Only behind a number what follows matters.
-/
import ResultCache.Json.Token
import ResultCache.Proofs.Json.Literal

namespace ResultCache.Json

/-! ## Strings -/

theorem hexCode?_hexChar : ∀ n < 0x20,
    hexCode? '0' '0' (hexChar (n / 16)) (hexChar (n % 16)) = some n := by
  decide

theorem readUnits_shortEscape {e c : Char} (h : shortEscape? e = some c) (rest : List Char) :
    readUnits ('\\' :: e :: rest) = (readUnits rest).map fun (units, r) => (.char c :: units, r) := by
  have hu : e ≠ 'u' := by
    rintro rfl
    cases h
  rw [readUnits]
  · rw [h]
    cases readUnits rest <;> rfl
  · rintro _ _ _ _ _ rfl
    exact absurd rfl hu

theorem readUnits_plain {c : Char} (hquote : c ≠ '"') (hbackslash : c ≠ '\\')
    (hcontrol : ¬ c.toNat < 0x20) (rest : List Char) :
    readUnits (c :: rest) = (readUnits rest).map fun (units, r) => (.char c :: units, r) := by
  rw [readUnits, if_neg (not_or.2 ⟨hbackslash, hcontrol⟩)]
  · cases readUnits rest <;> rfl
  · exact hquote
  · exact fun _ _ _ _ _ h => absurd h hbackslash
  · exact fun _ _ h => absurd h hbackslash

theorem readUnits_control {c : Char} (h : c.toNat < 0x20) (rest : List Char) :
    readUnits ('\\' :: 'u' :: '0' :: '0' :: hexChar (c.toNat / 16) :: hexChar (c.toNat % 16) :: rest) =
      (readUnits rest).map fun (units, r) => (.char c :: units, r) := by
  have hunit : unitOfCode c.toNat = .char c := by
    rw [unitOfCode, if_neg (by omega), Char.ofNat_toNat]
  rw [readUnits, hexCode?_hexChar _ h]
  simp only [hunit, Option.bind_eq_bind, Option.bind_some]
  cases readUnits rest <;> rfl

/-- A character is read back from the way it is written. -/
theorem readUnits_escapeChar (c : Char) (rest : List Char) :
    readUnits (escapeChar c ++ rest) =
      (readUnits rest).map fun (units, r) => (.char c :: units, r) := by
  unfold escapeChar
  -- seven characters have an escape of two characters
  iterate 7
    split
    · subst_vars
      exact readUnits_shortEscape rfl rest
  split
  · rename_i hcontrol
    exact readUnits_control hcontrol rest
  · rename_i hquote hbackslash _ _ _ _ _ hcontrol
    exact readUnits_plain hquote hbackslash hcontrol rest

/-- The characters of a string are read back up to its closing quote. -/
theorem readUnits_escape (cs : List Char) (rest : List Char) :
    readUnits ((cs.map TextUnit.char).flatMap TextUnit.escape ++ '"' :: rest) =
      some (cs.map .char, rest) := by
  induction cs with
  | nil => rfl
  | cons c cs ih =>
    rw [List.map_cons, List.flatMap_cons, List.append_assoc]
    show readUnits (escapeChar c ++ _) = _
    rw [readUnits_escapeChar, ih]
    rfl

theorem joinUnits_map_char (cs : List Char) : joinUnits (cs.map .char) = some cs := by
  induction cs with
  | nil => rfl
  | cons c cs ih => rw [List.map_cons, joinUnits, ih, Option.map_some]

/-- The units of a string spell it. -/
@[simp] theorem textOf?_unitsOf (s : String) : textOf? (unitsOf s) = some s := by
  rw [textOf?, unitsOf, joinUnits_map_char, Option.map_some, String.ofList_toList]

/-! ## Tokens -/

/-- What a writer puts out: numbers of the right form, and strings without halves of pairs. -/
def Token.Written : Token → Prop
  | .number l => l.WellFormed
  | .string units => ∃ s, units = unitsOf s
  | _ => True

/-- What stands behind a token does not go on with it. -/
def Token.EndsBefore (rest : List Char) : Token → Prop
  | .number _ => Ends rest
  | _ => True

/-- A number begins with its sign or with a digit. -/
theorem Literal.WellFormed.chars_eq_cons {l : Literal} (h : l.WellFormed) :
    ∃ c s, l.chars = c :: s ∧ (c = '-' ∨ (Digit.ofChar? c).isSome) := by
  obtain ⟨negative, whole, fraction, exponent⟩ := l
  cases negative with
  | true => exact ⟨'-', _, rfl, .inl rfl⟩
  | false =>
    cases whole with
    | nil => exact absurd rfl h.whole_ne_nil
    | cons d ds => exact ⟨d.char, _, rfl, .inr (by rw [Digit.ofChar?_char]; rfl)⟩

namespace Token

variable {t : Token} {rest : List Char}

/-- None of the other tokens begins like a number. -/
theorem read_number {c : Char} (h : c = '-' ∨ (Digit.ofChar? c).isSome) (s : List Char) :
    read (c :: s) = (Literal.read (c :: s)).map fun (l, r) => (.number l, r) := by
  unfold read
  split
  case h_11 => rfl
  all_goals
    rename_i hcons
    obtain ⟨rfl, -⟩ := List.cons.inj hcons
    exact absurd h (by decide)

theorem read_chars (h : t.Written) (hrest : t.EndsBefore rest) :
    read (t.chars ++ rest) = some (t, rest) := by
  cases t with
  | number l =>
    have hread := Literal.read_chars h hrest
    obtain ⟨c, s, hchars, hc⟩ := Literal.WellFormed.chars_eq_cons h
    rw [hchars] at hread
    show read (l.chars ++ rest) = _
    rw [hchars]
    rw [List.cons_append] at hread ⊢
    rw [read_number hc, hread]
    rfl
  | string units =>
    obtain ⟨s, rfl⟩ := h
    show (readUnits (_ ++ ['"'] ++ rest)).map _ = _
    rw [List.append_assoc, List.singleton_append, unitsOf, readUnits_escape]
    rfl
  | bool b => cases b <;> rfl
  | _ => rfl

/-- No token begins with a blank. -/
theorem chars_eq_cons (h : t.Written) : ∃ c s, t.chars = c :: s ∧ isBlank c = false := by
  cases t with
  | number l =>
    obtain ⟨c, s, hchars, hc⟩ := Literal.WellFormed.chars_eq_cons h
    refine ⟨c, s, hchars, ?_⟩
    rw [Bool.eq_false_iff]
    intro hblank
    simp only [isBlank, Bool.or_eq_true, beq_iff_eq] at hblank
    rcases hblank with ((rfl | rfl) | rfl) | rfl <;> revert hc <;> decide
  | bool b => cases b <;> exact ⟨_, _, rfl, by decide⟩
  | _ => exact ⟨_, _, rfl, by decide⟩

end Token

/-- The token at the front of a text is the first one that is read. -/
theorem lex_chars {t : Token} {rest : List Char} (h : t.Written) (hrest : t.EndsBefore rest) :
    lex (t.chars ++ rest) = (lex rest).map (t :: ·) := by
  have hread := Token.read_chars h hrest
  obtain ⟨c, s, hchars, hblank⟩ := Token.chars_eq_cons h
  rw [hchars, List.cons_append] at hread ⊢
  rw [lex, hblank, if_neg Bool.false_ne_true]
  split
  · rename_i hnone
    rw [hread] at hnone
    cases hnone
  · rename_i hsome
    rw [hread] at hsome
    cases hsome
    rfl

end ResultCache.Json
