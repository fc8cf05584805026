import FiniteState.Automaton.Product
import FiniteState.Automaton.Render
import FiniteState.Automaton.Run
import FiniteState.Automaton.Sample
import FiniteState.Automaton.Subset
import FiniteState.CommandLine.FileTree
import FiniteState.CommandLine.Invocation
import FiniteState.Grammar.Conversion
import FiniteState.Regex.Compile
import FiniteState.Text.Quoted

/-!
# Reports

An invocation builds an automaton and shows it: as a table, a graph or a grammar; then for each word
to check whether it is accepted, and then random words.  What goes wrong is told apart from what is
shown, and what was shown before it stays.

## Main definitions

* `Files` — the texts of files.
* `Failure` — what can go wrong.
* `Task.build` — the automaton of a task.
* `Invocation.report` — what an invocation shows.
* `Report.ofArguments` — what a list of arguments shows.
-/

namespace FiniteState.CommandLine

/-- The texts of files, or why there is no text. -/
abbrev Files := String → Except FileError String

/-- What can go wrong. -/
inductive Failure
  /-- The arguments are refused. -/
  | usage (cause : UsageError)
  /-- A file cannot be read. -/
  | unreadable (path : String) (cause : FileError)
  /-- The text of a file is no grammar. -/
  | noGrammar (path : String) (errors : List (Located GrammarError))
  /-- A text is no regular expression. -/
  | noRegex (text : List Char) (error : Located Regex.ParseError)
  /-- An automaton is not fit for what is asked. -/
  | unfit (cause : AutomatonError)

namespace Failure

/-- The text shown for a failure. -/
def message : Failure → String
  | usage cause => cause.wording
  | unreadable path cause => path ++ ": " ++ cause.message
  | noGrammar path errors => "\n".intercalate (errors.map fun e => path ++ ": " ++ e.message)
  | noRegex text error => "`" ++ String.ofList text ++ "`: " ++ error.message
  | unfit cause => (Located.wholeInput cause).message

/-- The status that the program ends with. -/
def status : Failure → Nat
  | usage _ => 2
  | unreadable _ _ | noGrammar _ _ | noRegex _ _ | unfit _ => 1

end Failure

/-- The result of an operation on automata as that of an invocation. -/
def fit {α : Type} : Except AutomatonError α → Except Failure α
  | .ok a => .ok a
  | .error cause => .error (.unfit cause)

/-! ### Building -/

/-- The automaton of a grammar in a file. -/
def loadGrammar (files : Files) (path : String) : Except Failure Automaton :=
  match files path with
  | .error cause => .error (.unreadable path cause)
  | .ok text =>
    match Grammar.parse text with
    | .ok g => .ok (.ofGrammar g)
    | .error errors => .error (.noGrammar path errors)

/-- The automaton of a regular expression. -/
def loadRegex (text : List Char) : Except Failure Automaton :=
  match Regex.compile text with
  | .ok fa => .ok fa
  | .error error => .error (.noRegex text error)

/-- The automaton of an operand. -/
def Operand.load (files : Files) : Operand → Except Failure Automaton
  | .regex text => loadRegex text
  | .grammar path => loadGrammar files path

/-- The automaton of an operand that is to be combined with another, made deterministic. -/
def Operand.loadDeterministic (files : Files) : Operand → Except Failure Automaton
  | .regex text => loadRegex text
  | .grammar path => do return (← loadGrammar files path).determinize

/-- The automaton of a task. -/
def Task.build (files : Files) : Task → Except Failure Automaton
  | .single operand => operand.load files
  | .union left right => do
    fit ((← left.loadDeterministic files).union (← right.loadDeterministic files))
  | .intersection left right => do
    fit ((← left.loadDeterministic files).intersection (← right.loadDeterministic files))

/-- The automaton in the form that the settings ask for. -/
def Settings.transform (s : Settings) (fa : Automaton) : Except Failure Automaton :=
  if s.has .minimize then fit (if fa.determinized then fa else fa.determinize).minimize
  else if s.has .determinize && !fa.determinized then .ok fa.determinize
  else .ok fa

/-! ### Showing -/

/-- The automaton as a grammar, a graph or a table. -/
def Settings.display (s : Settings) (fa : Automaton) : Except Failure String :=
  if s.has .toGrammar then do return (← fit (Grammar.ofAutomaton fa)).display
  else if s.has .dot then .ok (fa.dot ++ "\n")
  else .ok fa.table

/-- The line of a word to check. -/
def verdictLine (fa : Automaton) (word : List Char) : String :=
  Text.quoted word ++ (if fa.accepts word then ": accept" else ": reject") ++ "\n"

/-- The line of a random word. -/
def sampleLine (word : List Char) : String := Text.quoted word ++ "\n"

/-- The lines of the random words that the settings ask for. -/
def Settings.sampleLines (s : Settings) (source : Nat → Draws) (fa : Automaton) :
    Except Failure String :=
  match s.samples with
  | none => .ok ""
  | some count => do
    let words ← fit (fa.samples count (s.maxLength.getD Settings.standardLength) source)
    return String.join (words.map sampleLine)

/-- What the program shows, and how it ends. -/
structure Report where
  /-- What is shown. -/
  shown : String
  /-- What went wrong. -/
  failure : Option Failure

namespace Report

/-- Nothing is shown. -/
def failed (failure : Failure) : Report := ⟨"", some failure⟩

/-- A text before the rest of a report. -/
def after (text : String) (rest : Report) : Report := ⟨text ++ rest.shown, rest.failure⟩

/-- The report of a text that may be missing. -/
def ofText : Except Failure String → Report
  | .ok text => ⟨text, none⟩
  | .error failure => failed failure

/-- The status that the program ends with. -/
def status (r : Report) : Nat := (r.failure.map Failure.status).getD 0

/-- What the program tells of its failure. -/
def complaint (r : Report) : String :=
  match r.failure with
  | some failure => failure.message ++ "\n"
  | none => ""

end Report

/-- What the settings show of an automaton. -/
def Settings.report (s : Settings) (source : Nat → Draws) (fa : Automaton) : Report :=
  match s.display fa with
  | .error failure => .failed failure
  | .ok text =>
    .after (text ++ String.join (s.checks.map (verdictLine fa))) (.ofText (s.sampleLines source fa))

/-- What an invocation shows. -/
def Invocation.report (i : Invocation) (files : Files) (source : Nat → Draws) : Report :=
  match i.task.build files >>= i.settings.transform with
  | .error failure => .failed failure
  | .ok fa => i.settings.report source fa

/-- What a list of arguments shows. -/
def Report.ofArguments (arguments : List String) (files : Files) (source : Nat → Draws) : Report :=
  match Invocation.ofArguments arguments with
  | .error cause => .failed (.usage cause)
  | .ok i => i.report files source

end FiniteState.CommandLine
