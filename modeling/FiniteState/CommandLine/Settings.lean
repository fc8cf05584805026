/-!
# Settings of the command line

What is computed and shown is adjusted by *settings*.  A *flag* is given or not; a *parameter* takes
a value.  Every flag and every parameter but one may be given once; the words to check may be given
any number of times.

## Main definitions

* `Flag`, `Parameter` — what can be set.
* `UsageError` — the ways in which arguments are refused.
* `Settings` — what has been set; `Settings.raise` and `Settings.assign` set one thing more.
* `Settings.overriding` — settings that take precedence over others.
-/

namespace FiniteState.CommandLine

/-- What is given or not. -/
inductive Flag
  /-- Determinize the automaton. -/
  | determinize
  /-- Minimize the automaton. -/
  | minimize
  /-- Show a grammar in place of the table. -/
  | toGrammar
  /-- Show a graph in place of the table. -/
  | dot
  deriving DecidableEq, Repr

/-- What takes a value. -/
inductive Parameter
  /-- A word to check. -/
  | check
  /-- The number of random words to show. -/
  | samples
  /-- The length of the longest random word. -/
  | maxLength
  deriving DecidableEq, Repr

/-- What an option sets. -/
inductive Setting
  | flag (f : Flag)
  | parameter (p : Parameter)
  deriving DecidableEq, Repr

namespace Setting

/-- The options of one letter. -/
def shortNames : List (Char × Setting) :=
  [('d', .flag .determinize), ('m', .flag .minimize), ('g', .flag .toGrammar),
   ('c', .parameter .check), ('n', .parameter .samples)]

/-- The options with long names. -/
def longNames : List (String × Setting) :=
  [("determinize", .flag .determinize), ("minimize", .flag .minimize),
   ("to-grammar", .flag .toGrammar), ("dot", .flag .dot), ("check", .parameter .check),
   ("samples", .parameter .samples), ("max-len", .parameter .maxLength)]

/-- The long name of the option that sets it. -/
def name (s : Setting) : String :=
  match longNames.find? fun (_, t) => t == s with
  | some (name, _) => name
  | none => ""

end Setting

/-- The ways in which arguments are refused. -/
inductive UsageError
  /-- There is no command. -/
  | missingCommand
  /-- The command does not exist. -/
  | unknownCommand (name : String)
  /-- The option does not exist. -/
  | unknownOption (name : String)
  /-- The option is given twice. -/
  | repeatedOption (setting : Setting)
  /-- The option needs a value. -/
  | missingValue (setting : Setting)
  /-- The option takes no value. -/
  | unexpectedValue (setting : Setting)
  /-- The value is no number, or one that is too large. -/
  | invalidNumber (text : String)
  /-- The command needs one more operand. -/
  | missingOperand
  /-- The command takes fewer operands. -/
  | extraOperand
  /-- The operand is empty. -/
  | emptyOperand
  deriving DecidableEq, Repr

/-- The wording of a refusal. -/
def UsageError.wording : UsageError → String
  | missingCommand => "No command is given"
  | unknownCommand name => "Unknown command `" ++ name ++ "`"
  | unknownOption name => "Unknown option `" ++ name ++ "`"
  | repeatedOption setting => "Option `--" ++ setting.name ++ "` is given twice"
  | missingValue setting => "Option `--" ++ setting.name ++ "` needs a value"
  | unexpectedValue setting => "Option `--" ++ setting.name ++ "` takes no value"
  | invalidNumber text => "`" ++ text ++ "` is not a number that can be used"
  | missingOperand => "The command needs another operand"
  | extraOperand => "The command takes fewer operands"
  | emptyOperand => "The operand is empty"

/-! ### Numbers -/

/-- The largest number that an option takes. -/
def maxNumber : Nat := 1 <<< 64 - 1

/-- The value of decimal digits. -/
def ofDigits (digits : List Char) : Nat :=
  digits.foldl (fun n c => 10 * n + (c.toNat - '0'.toNat)) 0

/-- A text without a plus sign at its front. -/
def dropPlus : List Char → List Char
  | '+' :: rest => rest
  | text => text

/-- The number that a text stands for: one digit or more, after a plus sign or not. -/
def number? (text : List Char) : Option Nat :=
  let digits := dropPlus text
  if digits.isEmpty || !digits.all Char.isDigit || ofDigits digits > maxNumber then none
  else some (ofDigits digits)

/-! ### Settings -/

/-- What has been set. -/
structure Settings where
  /-- The flags that are given. -/
  flags : List Flag
  /-- The words to check, in order. -/
  checks : List (List Char)
  /-- The number of random words to show. -/
  samples : Option Nat
  /-- The length of the longest random word. -/
  maxLength : Option Nat
  deriving DecidableEq, Repr

namespace Settings

/-- Nothing has been set. -/
def unset : Settings := ⟨[], [], none, none⟩

/-- The flag is given. -/
def has (s : Settings) (f : Flag) : Bool := s.flags.contains f

/-- The settings with one more flag. -/
def raise (s : Settings) (f : Flag) : Except UsageError Settings :=
  if s.has f then .error (.repeatedOption (.flag f)) else .ok { s with flags := f :: s.flags }

/-- A number for a parameter that has no value yet. -/
def numberFor (p : Parameter) (old : Option Nat) (value : List Char) :
    Except UsageError (Option Nat) :=
  if old.isSome then .error (.repeatedOption (.parameter p))
  else
    match number? value with
    | some n => .ok (some n)
    | none => .error (.invalidNumber (String.ofList value))

/-- The settings with a value for a parameter. -/
def assign (s : Settings) (p : Parameter) (value : List Char) : Except UsageError Settings :=
  match p with
  | .check => .ok { s with checks := s.checks ++ [value] }
  | .samples => do return { s with samples := ← numberFor p s.samples value }
  | .maxLength => do return { s with maxLength := ← numberFor p s.maxLength value }

/-- Settings that take precedence over others, one by one.  The words to check are one setting. -/
def overriding (s t : Settings) : Settings where
  flags := s.flags ++ t.flags
  checks := if s.checks.isEmpty then t.checks else s.checks
  samples := s.samples <|> t.samples
  maxLength := s.maxLength <|> t.maxLength

/-- The length of the longest random word where nothing else is set. -/
def standardLength : Nat := 12

end Settings

end FiniteState.CommandLine
