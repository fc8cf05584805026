import FiniteState.Automaton.Error
import FiniteState.Automaton.Reach
import FiniteState.Automaton.Machine
import FiniteState.Automaton.Rename
import FiniteState.Automaton.Distinguish

/-!
# The smallest deterministic automaton

A deterministic automaton is made small by merging states that no word tells apart.  Its states that
are not reached, or do not reach an accepting state, are removed first.  The transition function is
then made complete by a *sink* that accepts nothing and is never left; as the remaining states all
reach an accepting state, the sink is merged with none of them and can be left out of the result.

## Main definitions

* `Automaton.live` — the part of an automaton between its initial and its accepting states.
* `Automaton.numbered` — its states as numbers, the sink being the last one.
* `Automaton.quotient` — the machine over the representatives of the merged states.
* `Automaton.minimize` — that machine as an automaton, with short names.
-/

namespace FiniteState.Automaton

/-- The automaton restricted to the states that are reached and reach an accepting state, and to the
symbols in use. -/
def live (fa : Automaton) : Automaton := fa.removeUnreachable.removeUseless

/-- The sink, whose number follows those of the states. -/
def sink (fa : Automaton) : Fin (fa.states.length + 1) := Fin.last _

/-- The number of a state, and the sink for a label that names no state. -/
def number (fa : Automaton) (q : Label) : Fin (fa.states.length + 1) :=
  ⟨fa.states.idxOf q, Nat.lt_succ_of_le List.idxOf_le_length⟩

/-- The state with a number; the sink has no label. -/
def numberedState? (fa : Automaton) (u : Fin (fa.states.length + 1)) : Option Label :=
  fa.states[u.val]?

/-- The number that a symbol leads to: that of the target, and the sink where there is none. -/
def numberedStep (fa : Automaton) (u : Fin (fa.states.length + 1)) (s : Symbol) :
    Fin (fa.states.length + 1) :=
  match (fa.numberedState? u).bind fun q => (fa.targets q s).first? with
  | some target => fa.number target
  | none => fa.sink

/-- The state with a number accepts. -/
def numberedAccepting (fa : Automaton) (u : Fin (fa.states.length + 1)) : Bool :=
  (fa.numberedState? u).any fa.isFinal

/-- The complete machine on the numbers of the states and the sink. -/
def numbered (fa : Automaton) : NumberedMachine (fa.states.length + 1) where
  accepting := Vector.ofFn fa.numberedAccepting
  steps := fa.alphabet.map fun s => Vector.ofFn fun u => fa.numberedStep u s

/-- The machine over the least states of the classes of states that no word tells apart, given these
least states.  The sink is left out. -/
def quotientBy (fa : Automaton)
    (least : Vector (Fin (fa.states.length + 1)) (fa.states.length + 1)) :
    Machine (Fin (fa.states.length + 1)) where
  alphabet := fa.alphabet
  states := (List.finRange _).filter fun u => u != fa.sink && least[u] == u
  step u s :=
    let next := least[fa.numberedStep u s]
    if next = fa.sink then none else some next
  initial := fa.initial.map fun q => least[fa.number q]
  accepting := fa.numberedAccepting

/-- The machine over the least states of the classes of states that no word tells apart. -/
def quotient (fa : Automaton) : Machine (Fin (fa.states.length + 1)) :=
  fa.quotientBy fa.numbered.distinguish.representatives

/-- The smallest deterministic automaton that accepts the same words, for an automaton that is
flagged as deterministic. -/
def minimize (fa : Automaton) : Except AutomatonError Automaton :=
  if fa.determinized then
    let core := fa.live
    if core.initial.isNone then .ok (empty.withDeterminized true)
    else .ok (core.quotient.toAutomaton fun u => (core.numberedState? u).getD "").rename
  else .error (.notDeterministic .minimization)

end FiniteState.Automaton
