import FiniteState.CommandLine.Settings

/-!
# Invocations

The arguments of the program name a command, its operands and settings.  Settings may be given
before the command, among the operands and after them; those after the command take precedence.

An argument that begins with a dash is an option: two dashes and a long name, with a value after an
equality sign or not; or one dash and letters, of which the last may take the rest of the argument
as its value.  A value that is not part of the option is the next argument.  A lone dash is an
ordinary word, and two dashes alone make every argument after them an operand.

## Main definitions

* `Operand`, `Task`, `Invocation` — what the arguments ask for.
* `Argument.ofText` — the form of an argument.
* `Reading.read` — the effect of one argument.
* `Invocation.ofArguments` — the invocation of a list of arguments.
-/

namespace FiniteState.CommandLine

/-! ### What the arguments ask for -/

/-- A language that a command works on. -/
inductive Operand
  /-- The language of a regular expression. -/
  | regex (text : List Char)
  /-- The language of a grammar in a file. -/
  | grammar (path : String)
  deriving DecidableEq, Repr

/-- The automaton that a command builds. -/
inductive Task
  /-- The automaton of one language. -/
  | single (operand : Operand)
  /-- The automaton of the words of either language. -/
  | union (left right : Operand)
  /-- The automaton of the words of both languages. -/
  | intersection (left right : Operand)
  deriving DecidableEq, Repr

/-- A command with its operands and settings. -/
structure Invocation where
  task : Task
  settings : Settings
  deriving DecidableEq, Repr

namespace Operand

/-- The file that a path names. -/
def ofPath (path : List Char) : Except UsageError Operand :=
  if path.isEmpty then .error .emptyOperand else .ok (.grammar (String.ofList path))

/-- A regular expression is marked by `re:`, and any other operand is a path. -/
def ofText : List Char → Except UsageError Operand
  | 'r' :: 'e' :: ':' :: text => .ok (.regex text)
  | path => ofPath path

/-- The path of a file to read. -/
def path? : Operand → Option String
  | .regex _ => none
  | .grammar path => some path

end Operand

/-- The files to read for a task. -/
def Task.paths : Task → List String
  | .single operand => operand.path?.toList
  | .union left right => left.path?.toList ++ right.path?.toList
  | .intersection left right => left.path?.toList ++ right.path?.toList

/-! ### Commands -/

/-- The commands. -/
inductive Verb
  /-- The automaton of a grammar. -/
  | grammar
  /-- The automaton of a regular expression. -/
  | regex
  /-- The words of either language. -/
  | union
  /-- The words of both languages. -/
  | intersect
  deriving DecidableEq, Repr

namespace Verb

/-- The names of the commands. -/
def names : List (String × Verb) :=
  [("grammar", .grammar), ("regex", .regex), ("union", .union), ("intersect", .intersect)]

/-- The command with a name. -/
def ofName? (name : String) : Option Verb := names.lookup name

/-- The number of operands. -/
def arity : Verb → Nat
  | .grammar | .regex => 1
  | .union | .intersect => 2

/-- The task of a command with operands. -/
def task : Verb → List (List Char) → Except UsageError Task
  | .grammar, [path] => do return .single (← Operand.ofPath path)
  | .regex, [text] => .ok (.single (.regex text))
  | .union, [left, right] => do return .union (← Operand.ofText left) (← Operand.ofText right)
  | .intersect, [left, right] => do
    return .intersection (← Operand.ofText left) (← Operand.ofText right)
  | verb, operands =>
    .error (if operands.length < verb.arity then .missingOperand else .extraOperand)

end Verb

/-! ### Arguments -/

/-- The form of an argument. -/
inductive Argument
  /-- An ordinary word. -/
  | word (text : List Char)
  /-- The end of the options. -/
  | ending
  /-- A long name, with a value or not. -/
  | long (name : List Char) (value : Option (List Char))
  /-- Letters, the last of which may be followed by a value. -/
  | short (letters : List Char)
  deriving DecidableEq, Repr

/-- A long name and the value after the first equality sign. -/
def Argument.ofLong (text : List Char) : Argument :=
  match text.dropWhile (· != '=') with
  | [] => .long text none
  | _ :: value => .long (text.takeWhile (· != '=')) (some value)

/-- The form of an argument. -/
def Argument.ofText : List Char → Argument
  | ['-'] => .word ['-']
  | ['-', '-'] => .ending
  | '-' :: '-' :: text => ofLong text
  | '-' :: letters => .short letters
  | text => .word text

/-- What has been read of the arguments. -/
structure Reading where
  /-- The command, once it is named. -/
  verb : Option Verb
  /-- The settings before the command. -/
  general : Settings
  /-- The settings after the command. -/
  specific : Settings
  /-- The operands. -/
  operands : List (List Char)
  /-- The parameter whose value is the next argument. -/
  awaiting : Option Parameter
  /-- The options have ended. -/
  ended : Bool

namespace Reading

/-- Nothing has been read. -/
def start : Reading := ⟨none, .unset, .unset, [], none, false⟩

/-- A change of the settings that options are added to at this place. -/
def modify (r : Reading) (f : Settings → Except UsageError Settings) :
    Except UsageError Reading :=
  if r.verb.isSome then do return { r with specific := ← f r.specific }
  else do return { r with general := ← f r.general }

/-- The value of a parameter. -/
def assign (r : Reading) (p : Parameter) (value : List Char) : Except UsageError Reading :=
  ({ r with awaiting := none } : Reading).modify fun s => s.assign p value

/-- An operand, or the name of the command. -/
def readOperand (r : Reading) (text : List Char) : Except UsageError Reading :=
  if r.verb.isSome then .ok { r with operands := r.operands ++ [text] }
  else
    match if r.ended then none else Verb.ofName? (String.ofList text) with
    | some verb => .ok { r with verb := some verb }
    | none => .error (.unknownCommand (String.ofList text))

/-- A long option. -/
def readLong (r : Reading) (name : List Char) (value : Option (List Char)) :
    Except UsageError Reading :=
  match Setting.longNames.lookup (String.ofList name), value with
  | none, _ => .error (.unknownOption (String.ofList name))
  | some (.flag f), none => r.modify (·.raise f)
  | some (.flag f), some _ => .error (.unexpectedValue (.flag f))
  | some (.parameter p), none => .ok { r with awaiting := some p }
  | some (.parameter p), some value => r.assign p value

/-- A value that is part of an argument may follow an equality sign. -/
def dropEquals : List Char → List Char
  | '=' :: value => value
  | value => value

/-- A list of letters, each of them an option. -/
def readShort (r : Reading) : List Char → Except UsageError Reading
  | [] => .ok r
  | letter :: rest =>
    match Setting.shortNames.lookup letter with
    | none => .error (.unknownOption (String.ofList [letter]))
    | some (.flag f) => do (← r.modify (·.raise f)).readShort rest
    | some (.parameter p) =>
      if rest.isEmpty then .ok { r with awaiting := some p } else r.assign p (dropEquals rest)

/-- An option, where no value is awaited. -/
def readOption (r : Reading) : Argument → Except UsageError Reading
  | .word text => r.readOperand text
  | .ending => .ok { r with ended := true }
  | .long name value => r.readLong name value
  | .short letters => r.readShort letters

/-- The effect of one argument. -/
def read (r : Reading) (text : List Char) : Except UsageError Reading :=
  if r.ended then r.readOperand text
  else
    match r.awaiting, Argument.ofText text with
    | none, argument => r.readOption argument
    | some p, .word value => r.assign p value
    | some p, _ => .error (.missingValue (.parameter p))

/-- The invocation, once all arguments have been read. -/
def finish (r : Reading) : Except UsageError Invocation :=
  match r.awaiting, r.verb with
  | some p, _ => .error (.missingValue (.parameter p))
  | none, none => .error .missingCommand
  | none, some verb => do return ⟨← verb.task r.operands, r.specific.overriding r.general⟩

end Reading

/-- The invocation of a list of arguments. -/
def Invocation.ofArguments (arguments : List String) : Except UsageError Invocation := do
  (← (arguments.map String.toList).foldlM Reading.read .start).finish

end FiniteState.CommandLine
