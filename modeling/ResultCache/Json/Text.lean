/-
String literals of JSON. Between its quotes a literal spells characters and, by escapes of four hex
digits, halves of surrogate pairs; `readUnits` takes them off a text without judging the halves, and
`joinUnits` gives the characters if every half has its partner. `escape` writes characters so that
they read back.
-/

namespace ResultCache.Json

/-- What one character or escape of a string literal stands for. -/
inductive TextUnit where
  | char (c : Char)
  /-- One half of a surrogate pair. -/
  | half (code : Nat)
  deriving DecidableEq, Repr

/-! ## Reading -/

/-- The value of a hex digit. -/
def hexValue? (c : Char) : Option Nat :=
  let n := c.toNat
  if 48 ≤ n ∧ n < 58 then some (n - 48)
  else if 97 ≤ n ∧ n < 103 then some (n - 87)
  else if 65 ≤ n ∧ n < 71 then some (n - 55)
  else none

/-- The value of four hex digits. -/
def hexCode? (a b c d : Char) : Option Nat := do
  some (((((← hexValue? a) * 16) + (← hexValue? b)) * 16 + (← hexValue? c)) * 16 + (← hexValue? d))

/-- What a code of 16 bits stands for. -/
def unitOfCode (code : Nat) : TextUnit :=
  if 0xD800 ≤ code ∧ code < 0xE000 then .half code else .char (Char.ofNat code)

/-- The character a backslash and a single letter stand for. -/
def shortEscape? : Char → Option Char
  | '"' => some '"'
  | '\\' => some '\\'
  | '/' => some '/'
  | 'b' => some '\x08'
  | 'f' => some '\x0c'
  | 'n' => some '\n'
  | 'r' => some '\x0d'
  | 't' => some '\t'
  | _ => none

/-- The rest of a string literal behind its opening quote, and what follows its closing quote.
Control characters have to be escaped. -/
def readUnits : List Char → Option (List TextUnit × List Char)
  | [] => none
  | '"' :: rest => some ([], rest)
  | '\\' :: 'u' :: a :: b :: c :: d :: rest => do
    let code ← hexCode? a b c d
    let (units, r) ← readUnits rest
    some (unitOfCode code :: units, r)
  | '\\' :: e :: rest => do
    let c ← shortEscape? e
    let (units, r) ← readUnits rest
    some (.char c :: units, r)
  | c :: rest =>
    if c = '\\' ∨ c.toNat < 0x20 then none
    else do
      let (units, r) ← readUnits rest
      some (.char c :: units, r)

theorem readUnits_length {s r : List Char} {units : List TextUnit}
    (h : readUnits s = some (units, r)) : r.length < s.length := by
  fun_induction readUnits s generalizing units r with
  | case1 => cases h
  | case2 rest => cases h; simp
  | case3 a b c d rest ih =>
    simp only [bind, Option.bind_eq_some_iff, Prod.exists, Option.some.injEq, Prod.mk.injEq] at h
    obtain ⟨_, _, us, r', h1, _, rfl⟩ := h
    have := ih h1
    simp only [List.length_cons]
    omega
  | case4 e rest _ ih =>
    simp only [bind, Option.bind_eq_some_iff, Prod.exists, Option.some.injEq, Prod.mk.injEq] at h
    obtain ⟨_, _, us, r', h1, _, rfl⟩ := h
    have := ih h1
    simp only [List.length_cons]
    omega
  | case5 => cases h
  | case6 c rest _ _ _ _ ih =>
    simp only [bind, Option.bind_eq_some_iff, Prod.exists, Option.some.injEq, Prod.mk.injEq] at h
    obtain ⟨us, r', h1, _, rfl⟩ := h
    have := ih h1
    simp only [List.length_cons]
    omega

/-- The characters that units spell: a high half and the low half behind it make one character, and
no half may stand alone. -/
def joinUnits : List TextUnit → Option (List Char)
  | [] => some []
  | .char c :: rest => (joinUnits rest).map (c :: ·)
  | .half high :: .half low :: rest =>
    if high < 0xDC00 ∧ 0xDC00 ≤ low then
      (joinUnits rest).map
        (Char.ofNat (0x10000 + (high - 0xD800) * 0x400 + (low - 0xDC00)) :: ·)
    else none
  | .half _ :: _ => none

/-! ## Writing -/

/-- The hex digit of a value below sixteen. -/
def hexChar (n : Nat) : Char := if n < 10 then Char.ofNat (48 + n) else Char.ofNat (87 + n)

/-- How one character is written: quote, backslash and control characters by escapes, all else as
itself. -/
def escapeChar (c : Char) : List Char :=
  if c = '"' then ['\\', '"']
  else if c = '\\' then ['\\', '\\']
  else if c = '\x08' then ['\\', 'b']
  else if c = '\x0c' then ['\\', 'f']
  else if c = '\n' then ['\\', 'n']
  else if c = '\x0d' then ['\\', 'r']
  else if c = '\t' then ['\\', 't']
  else if c.toNat < 0x20 then
    ['\\', 'u', '0', '0', hexChar (c.toNat / 16), hexChar (c.toNat % 16)]
  else [c]

/-- How one unit is written; a half by its code. -/
def TextUnit.escape : TextUnit → List Char
  | .char c => escapeChar c
  | .half code =>
    ['\\', 'u', hexChar (code / 4096 % 16), hexChar (code / 256 % 16), hexChar (code / 16 % 16),
      hexChar (code % 16)]

/-- The units of a string. -/
def unitsOf (s : String) : List TextUnit := s.toList.map .char

/-- The string that units spell. -/
def textOf? (units : List TextUnit) : Option String := (joinUnits units).map String.ofList

end ResultCache.Json
