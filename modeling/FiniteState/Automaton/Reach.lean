import FiniteState.Automaton.Basic
import FiniteState.Traversal

/-!
# Closures and reachability

A state reaches another along transitions.  Along transitions without reading it reaches its
*closure*, along any transitions its *reachable* states; a state is *coreachable* when it reaches an
accepting one.

## Main definitions

* `Automaton.closure`, `Automaton.reachable` — the states reached from a state.
* `Automaton.coreachable` — the states from which an accepting state is reached.
* `Automaton.removeUseless`, `Automaton.removeUnreachable`, `Automaton.pruneUnusedSymbols` —
  what such states and symbols leave when the others are removed.
* `Automaton.isEmpty`, `Automaton.isValid` — whether a word is accepted.
-/

namespace FiniteState.Automaton

/-! ### Steps -/

/-- The states reached by one transition on a symbol of the alphabet. -/
def successors (fa : Automaton) (q : Label) : List Label :=
  fa.alphabet.flatMap fun s => (fa.targets q s).toList

/-- The states with a transition to a state. -/
def predecessors (fa : Automaton) (q : Label) : List Label :=
  (fa.rows.filter fun (_, row) => row.any fun (_, c) => c.targets.contains q).map (·.1)

/-! ### Reached states -/

/-- The states reached from a state without reading, itself included. -/
def closure (fa : Automaton) (q : Label) : LabelSet :=
  if fa.hasState q then
    .ofList (explore (fun p => (fa.targets p Symbol.epsilon).toList) fa.rows.length [q])
  else ∅

/-- The states reached from a state by any transitions, itself included. -/
def reachable (fa : Automaton) (q : Label) : LabelSet :=
  if fa.hasState q then .ofList (explore fa.successors fa.rows.length [q]) else ∅

/-- The states reached from the initial state. -/
def reachableFromInitial (fa : Automaton) : LabelSet :=
  match fa.initial with
  | some q => fa.reachable q
  | none => ∅

/-- The states from which an accepting state is reached. -/
def coreachable (fa : Automaton) : LabelSet :=
  .ofList (explore fa.predecessors fa.rows.length (fa.finals.filter fa.hasState))

/-! ### Trimming -/

/-- Some cell of the symbol has a target. -/
def usesSymbol (fa : Automaton) (s : Symbol) : Bool :=
  fa.rows.any fun (_, row) => match row.lookup s with
    | some c => !c.isEmpty
    | none => false

/-- Removes the symbols that no cell uses. -/
def pruneUnusedSymbols (fa : Automaton) : Automaton := fa.keepSymbols fa.usesSymbol

/-- Removes the states that do not reach an accepting state, and then the symbols that no cell
uses. -/
def removeUseless (fa : Automaton) : Automaton :=
  (fa.keepStates fa.coreachable.contains).pruneUnusedSymbols

/-- Removes the states that are not reached from the initial state. -/
def removeUnreachable (fa : Automaton) : Automaton :=
  fa.keepStates fa.reachableFromInitial.contains

/-- When the states that do not reach an accepting state are removed, an initial state and an
accepting state remain. -/
def isValid (fa : Automaton) : Bool :=
  let trimmed := fa.removeUseless
  trimmed.initial.isSome && !trimmed.finals.isEmpty

/-- No accepting state is reached from the initial state. -/
def isEmpty (fa : Automaton) : Bool := fa.reachableFromInitial.toList.all fun q => !fa.isFinal q

end FiniteState.Automaton
