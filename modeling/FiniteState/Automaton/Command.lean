import FiniteState.Automaton.Edit
import FiniteState.Automaton.Subset
import FiniteState.Automaton.Minimal
import FiniteState.Automaton.Product

/-!
# Commands

An editor changes an automaton by commands.  A command either succeeds, and tells whether it changed
anything, or fails and leaves the automaton as it was; only the text of a rejected edit stays on its
cell.

## Main definitions

* `Command` — the commands.
* `Outcome` — what a command reports, and the automaton after it.
* `Automaton.apply` — the effect of a command.
-/

namespace FiniteState

/-- A change that a user asks for. -/
inductive Command
  /-- Add a state. -/
  | addState (label : Label)
  /-- Delete a state and every reference to it. -/
  | deleteState (label : Label)
  /-- Add a symbol. -/
  | addSymbol (symbol : Symbol)
  /-- Delete a symbol and its column. -/
  | deleteSymbol (symbol : Symbol)
  /-- Make a state the initial one. -/
  | setInitial (label : Label)
  /-- Mark a state as accepting. -/
  | addFinal (label : Label)
  /-- Take the mark of an accepting state away. -/
  | removeFinal (label : Label)
  /-- Edit the text of a cell. -/
  | updateTransition (label : Label) (symbol : Symbol) (text : String)
  /-- Turn the automaton into a deterministic one. -/
  | determinize
  /-- Turn the automaton into the smallest deterministic one. -/
  | minimize
  /-- Replace the automaton by its union with another. -/
  | union (other : Automaton)
  /-- Replace the automaton by its intersection with another. -/
  | intersection (other : Automaton)

/-- What a command reports, and the automaton after it. -/
structure Outcome where
  /-- Whether the command changed anything, or why it failed. -/
  report : Except AutomatonError Bool
  automaton : Automaton

namespace Automaton

/-- The outcome of an edit: the automaton changes where the edit succeeds. -/
def edited (fa : Automaton) (changed : Bool) : Except AutomatonError Automaton → Outcome
  | .ok result => ⟨.ok changed, result⟩
  | .error cause => ⟨.error cause, fa⟩

/-- The outcome of a construction, which has changed something when its result is not the same. -/
def replaced (fa : Automaton) : Except AutomatonError Automaton → Outcome
  | .ok result => ⟨.ok (!fa.same result), result⟩
  | .error cause => ⟨.error cause, fa⟩

/-- The outcome of an edit of a cell. -/
def updateTransition (fa : Automaton) (q : Label) (s : Symbol) (text : String) : Outcome :=
  if !fa.hasState q then ⟨.error (.unknownState q), fa⟩
  else if !fa.hasSymbol s then ⟨.error (.unknownSymbol s), fa⟩
  else
    match Cell.parseTargets text.toList with
    | some targets => ⟨.ok true, fa.setTargets q s targets⟩
    | none => ⟨.error (.invalidTransitionText text), fa.rejectText q s text⟩

/-- The effect of a command. -/
def apply (fa : Automaton) : Command → Outcome
  | .addState q => fa.edited (!fa.hasState q) (fa.addState q)
  | .deleteState q =>
    if fa.hasState q then ⟨.ok true, fa.deleteState q⟩ else ⟨.ok false, fa⟩
  | .addSymbol s => fa.edited (!fa.hasSymbol s) (fa.addSymbol s)
  | .deleteSymbol s =>
    if fa.hasSymbol s then ⟨.ok true, fa.deleteSymbol s⟩ else ⟨.ok false, fa⟩
  | .setInitial q => fa.edited (fa.initial != some q) (fa.setInitial q)
  | .addFinal q => fa.edited (!fa.isFinal q) (fa.addFinal q)
  | .removeFinal q => ⟨.ok (fa.isFinal q), fa.removeFinal q⟩
  | .updateTransition q s text => fa.updateTransition q s text
  | .determinize => fa.replaced (.ok fa.determinize)
  | .minimize => fa.replaced fa.minimize
  | .union other => fa.replaced (fa.union other)
  | .intersection other => fa.replaced (fa.intersection other)

end Automaton

end FiniteState
