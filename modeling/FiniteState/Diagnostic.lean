/-!
# Diagnostics

Every failure has a *cause*, a value of a type that belongs to the operation that failed, and a
*location* in the text it was found in.  A cause type tells two things of each cause: its broad
kind, and its wording.

## Main definitions

* `Location` — a line and a column, either of which may be absent.
* `ErrorKind` — the broad kinds of failure.
* `Diagnostic` — kind and wording of the causes of one type.
* `Located` — a cause with its location; `Located.message` is the whole text shown for it.
-/

namespace FiniteState

/-- A place in a text.  Lines and columns count from one, and zero means that the number is absent;
the place without line and column is the whole input. -/
structure Location where
  line : Nat
  column : Nat
  deriving DecidableEq, Repr

namespace Location

/-- The whole input. -/
def input : Location := ⟨0, 0⟩

/-- A whole line. -/
def onLine (line : Nat) : Location := ⟨line, 0⟩

/-- A column of a text that has a single line. -/
def atColumn (column : Nat) : Location := ⟨0, column⟩

/-- A location is written by the numbers it has. -/
def text : Location → String
  | ⟨0, 0⟩ => "input"
  | ⟨line, 0⟩ => "line " ++ toString line
  | ⟨0, column⟩ => "column " ++ toString column
  | ⟨line, column⟩ => toString line ++ ":" ++ toString column

end Location

/-- The broad kinds of failure. -/
inductive ErrorKind
  /-- The text of a grammar or of a regular expression is malformed. -/
  | syntactic
  /-- The text is well formed and breaks a rule of its meaning. -/
  | semantic
  /-- An edit refers to something that does not exist or is not allowed. -/
  | illFormedEdit
  /-- An operation was asked of an operand that it does not accept. -/
  | precondition
  deriving DecidableEq, Repr

/-- Kind and wording of the causes of one type. -/
class Diagnostic (ε : Type) where
  /-- The broad kind of a cause. -/
  kind : ε → ErrorKind
  /-- The wording of a cause. -/
  wording : ε → String

/-- A cause of failure with the place it was found at. -/
structure Located (ε : Type) where
  location : Location
  cause : ε
  deriving DecidableEq, Repr

namespace Located

variable {ε : Type}

/-- A cause that concerns the whole input. -/
def wholeInput (cause : ε) : Located ε := ⟨.input, cause⟩

/-- The text shown for a failure: the location in brackets, then the wording of the cause. -/
def message [Diagnostic ε] (e : Located ε) : String :=
  "[" ++ e.location.text ++ "] " ++ Diagnostic.wording e.cause

end Located

end FiniteState
