import FiniteState.Diagnostic
import FiniteState.Symbol
import FiniteState.Label.Basic

/-!
# What can go wrong with an automaton

Edits fail when they refer to states or symbols that do not exist or are not allowed, and operations
fail when an operand lacks what they need.

## Main definitions

* `Operation` — the operations that make demands on their operands.
* `AutomatonError` — the causes of failure, with their kinds and wordings.
-/

namespace FiniteState

/-- The operations that make demands on their operands. -/
inductive Operation
  /-- The smallest deterministic machine. -/
  | minimization
  /-- The words of either machine. -/
  | union
  /-- The words of both machines. -/
  | intersection
  /-- A grammar of the words of a machine. -/
  | grammarConversion
  /-- Random accepted words. -/
  | sampling
  deriving DecidableEq, Repr

/-- The name of an operation at the start of a sentence. -/
def Operation.name : Operation → String
  | .minimization => "Minimization"
  | .union => "Union"
  | .intersection => "Intersection"
  | .grammarConversion => "Grammar conversion"
  | .sampling => "Sampling"

/-- The most random words that one request hands out. -/
def maxSamples : Nat := 65536

/-- The ways in which an edit or an operation fails. -/
inductive AutomatonError
  /-- The state does not exist. -/
  | unknownState (label : Label)
  /-- The symbol has no column. -/
  | unknownSymbol (symbol : Symbol)
  /-- Only terminals and the marker of the empty word can have a column. -/
  | invalidSymbol (symbol : Symbol)
  /-- The text is not a label that an editor accepts. -/
  | invalidStateLabel (label : Label)
  /-- The text of a cell is not a list of states. -/
  | invalidTransitionText (text : String)
  /-- The operation needs deterministic operands. -/
  | notDeterministic (operation : Operation)
  /-- The operation needs an initial state. -/
  | missingInitialState (operation : Operation)
  /-- No word is accepted. -/
  | emptyLanguage
  /-- There are more states than single-letter nonterminals. -/
  | tooManyStates (count : Nat)
  /-- More words are requested than one request hands out. -/
  | tooManySamples (count : Nat)
  deriving DecidableEq, Repr

namespace AutomatonError

/-- Edits are ill formed, an empty language is a matter of meaning, and the rest are demands on the
operands. -/
def kind : AutomatonError → ErrorKind
  | unknownState _ | unknownSymbol _ | invalidSymbol _ | invalidStateLabel _
  | invalidTransitionText _ => .illFormedEdit
  | emptyLanguage => .semantic
  | notDeterministic _ | missingInitialState _ | tooManyStates _ | tooManySamples _ =>
    .precondition

/-- The wording of a cause. -/
def wording : AutomatonError → String
  | unknownState label => "No state named `" ++ label ++ "`"
  | unknownSymbol symbol => "Symbol `" ++ Label.ofChar symbol ++ "` is not in the alphabet"
  | invalidSymbol symbol => "`" ++ Label.ofChar symbol ++ "` cannot be used as a symbol"
  | invalidStateLabel label => "`" ++ label ++ "` is not a valid state label"
  | invalidTransitionText text => "`" ++ text ++ "` is not a comma-separated list of states"
  | notDeterministic operation =>
    operation.name ++ " requires a deterministic automaton, determinize it first"
  | missingInitialState operation => operation.name ++ " requires an initial state"
  | emptyLanguage => "The automaton does not accept any word"
  | tooManyStates count =>
    toString count ++ " states cannot be named with single-letter nonterminals"
  | tooManySamples count =>
    "Cannot sample " ++ toString count ++ " words, at most " ++ toString maxSamples ++ " per call"

instance : Diagnostic AutomatonError := ⟨kind, wording⟩

end AutomatonError

end FiniteState
