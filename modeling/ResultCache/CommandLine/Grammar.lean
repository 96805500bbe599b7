/-
Reading command lines. Long options are written `--name`, with a value as `--name=value` or
`--name value`; short ones `-c`, several of them joined, the last with its value attached, behind
`=`, or as the next argument. Options come before a subcommand, which reads the arguments behind it.

A value that comes as an argument of its own is looked at only when the next option is used or the
arguments end. So an unknown option behind it is reported first, and so is any fault in the
arguments of a subcommand.
-/
import ResultCache.Number.Digits

namespace ResultCache.CommandLine

/-- Why no arguments came out of a command line. -/
inductive Refusal where
  | unknownArgument
  | invalidSubcommand
  /-- A value is missing or not one of those listed. -/
  | invalidValue
  /-- A value is no number of its kind. -/
  | valueValidation
  /-- An option is given twice. -/
  | argumentConflict
  /-- A value is given to an option that takes none. -/
  | tooManyValues
  | displayHelp
  | displayVersion
  /-- Nothing at all is given where a subcommand is needed. -/
  | helpInstead
  | missingSubcommand
  deriving DecidableEq, Repr

/-- What an option does to the settings. -/
inductive Action (σ : Type) where
  /-- Given at most once. -/
  | flag (set : σ → σ)
  /-- Given any number of times. -/
  | count (set : σ → σ)
  /-- Given at most once, with a value. -/
  | value (set : String → Except Refusal (σ → σ))
  /-- Ends the reading. -/
  | stop (reason : Refusal)

structure Opt (σ : Type) where
  long : String
  short : Option Char
  action : Action σ

/-- What a command line may hold. -/
structure Grammar (σ : Type) where
  opts : List (Opt σ)
  commands : List String := []

/-- What has been read so far. -/
structure Parsing (σ : Type) where
  settings : σ
  /-- The options used, by their long names. -/
  given : List String := []
  /-- The last option that takes a value from an argument of its own, with that value once it has
  come. -/
  pending : Option (Opt σ × Option String) := none

namespace Parsing

variable {σ : Type}

/-- Whether the next argument is the value of an option, if it is no option itself. -/
def awaitsValue (p : Parsing σ) : Bool :=
  match p.pending with
  | some (_, none) => true
  | _ => false

/-- Uses an option. -/
def use (o : Opt σ) (value : Option String) (p : Parsing σ) : Except Refusal (Parsing σ) :=
  let once (set : σ → σ) : Parsing σ :=
    { p with settings := set p.settings, given := o.long :: p.given }
  match o.action with
  | .stop reason => .error reason
  | .count set => .ok (once set)
  | .flag set => if p.given.contains o.long then .error .argumentConflict else .ok (once set)
  | .value read =>
    match value with
    | none => .error .invalidValue
    | some v => if p.given.contains o.long then .error .argumentConflict else (read v).map once

/-- Uses the option that is still pending. -/
def settle (p : Parsing σ) : Except Refusal (Parsing σ) :=
  match p.pending with
  | none => .ok p
  | some (o, value) => { p with pending := none }.use o value

/-- Uses an option with the value attached to it, or lets it wait for one. -/
def useOrAwait (o : Opt σ) (value : Option String) (p : Parsing σ) :
    Except Refusal (Parsing σ) := do
  let p ← p.settle
  match o.action, value with
  | .value _, none => .ok { p with pending := some (o, none) }
  | _, _ => p.use o value

/-- Reads a long option. -/
def long (g : Grammar σ) (name : String) (value : Option String) (p : Parsing σ) :
    Except Refusal (Parsing σ) :=
  match g.opts.find? fun o => o.long == name with
  | none => .error .unknownArgument
  | some o =>
    match o.action, value with
    | .value _, _ => p.useOrAwait o value
    | _, some _ => .error .tooManyValues
    | _, none => p.useOrAwait o none

/-- Reads joined short options. -/
def shorts (g : Grammar σ) : List Char → Parsing σ → Except Refusal (Parsing σ)
  | [], p => .ok p
  | c :: rest, p =>
    match g.opts.find? fun o => o.short == some c with
    | none => .error .unknownArgument
    | some o =>
      match o.action, rest with
      -- a value takes all that is left of the argument
      | .value _, [] => p.useOrAwait o none
      | .value _, '=' :: value => p.useOrAwait o (some (String.ofList value))
      | .value _, value => p.useOrAwait o (some (String.ofList value))
      | _, _ => do shorts g rest (← p.useOrAwait o none)

end Parsing

/-- How an argument looks. -/
inductive Shape where
  /-- A lone `--`, behind which there are no options. -/
  | escape
  | long (name : String) (value : Option String)
  | shorts (cs : List Char)
  | plain
  deriving DecidableEq, Repr

/-- Divides at the first `=`. -/
def splitValue (cs : List Char) : String × Option String :=
  (String.ofList (cs.takeWhile (· != '=')),
    match cs.dropWhile (· != '=') with
    | [] => none
    | _ :: value => some (String.ofList value))

def Shape.of (arg : String) : Shape :=
  match arg.toList with
  | ['-', '-'] => .escape
  | '-' :: '-' :: rest => let (name, value) := splitValue rest; .long name value
  | ['-'] => .plain
  | '-' :: cs => .shorts cs
  | _ => .plain

/-- What came out of the arguments up to a subcommand. -/
structure Scan (σ : Type) where
  parsing : Parsing σ
  /-- The subcommand and the arguments behind it. -/
  subcommand : Option (String × List String)

namespace Grammar

variable {σ : Type}

/-- What to say of an argument that belongs nowhere. -/
def stray (g : Grammar σ) : Refusal :=
  if g.commands.isEmpty then .unknownArgument else .invalidSubcommand

/-- Reads arguments up to a subcommand. -/
def scan (g : Grammar σ) : List String → Parsing σ → Except Refusal (Scan σ)
  | [], p => .ok ⟨p, none⟩
  | arg :: rest, p =>
    -- the name of a subcommand may also be the value an option waits for
    if !p.awaitsValue && g.commands.contains arg then .ok ⟨p, some (arg, rest)⟩
    else
      match Shape.of arg with
      | .escape =>
        match rest with
        | [] => .ok ⟨p, none⟩
        | next :: _ => .error (if g.commands.contains next then .unknownArgument else g.stray)
      | .long name value => do g.scan rest (← p.long g name value)
      | .shorts cs => do g.scan rest (← p.shorts g cs)
      | .plain =>
        match p.pending with
        | some (o, none) => g.scan rest { p with pending := some (o, some arg) }
        | _ => .error g.stray

end Grammar

/-! ## Values -/

/-- A whole number with an optional sign. -/
def readInteger (text : String) : Option Int :=
  let number (cs : List Char) : Option Nat :=
    match spanDigits cs with
    | ([], _) => none
    | (ds, []) => some (ofDigits ds)
    | _ => none
  match text.toList with
  | '+' :: cs => (number cs).map Int.ofNat
  | '-' :: cs => (number cs).map fun n => -(n : Int)
  | cs => (number cs).map Int.ofNat

/-- A whole number without a minus sign. -/
def readNatural (text : String) : Option Nat :=
  if text.toList.head? = some '-' then none else (readInteger text).map Int.toNat

end ResultCache.CommandLine
