import FiniteState.Automaton.Run
import FiniteState.Automaton.Machine
import FiniteState.Automaton.Rename

/-!
# The powerset machine

A nondeterministic automaton is turned into a deterministic one whose states are the sets of states
that it can be in at once.  Only the sets that reading words leads to are built, the sets from which
no accepting state is reached are dropped again, and the rest get short names.

## Main definitions

* `Automaton.powerset` — the machine over the sets of states that words lead to.
* `Automaton.determinize` — the live part of that machine, as an automaton.
-/

namespace FiniteState

/-- The description of a set of states: its members, one after the other. -/
def LabelSet.describe (s : LabelSet) : Label := String.join s.toList

namespace Automaton

/-- The set of states that a symbol leads to, if it has a member. -/
def setStep (fa : Automaton) (current : LabelSet) (s : Symbol) : Option LabelSet :=
  let next := fa.step current s
  if next.isEmpty then none else some next

/-- The machine over the nonempty sets of states, all of them closed under transitions without
reading, that are discovered from the states before the first symbol.  It has no more states than
there are sets of states. -/
def powerset (fa : Automaton) : Machine LabelSet :=
  Machine.discovered
    { alphabet := fa.alphabet.filter fun s => !Symbol.isEpsilon s
      states := []
      step := fa.setStep
      initial := if fa.start.isEmpty then none else some fa.start
      accepting := fa.meetsFinal }
    (1 <<< fa.rows.length)

/-- A deterministic automaton that accepts the same words.  Without an initial state only the
symbols are left. -/
def determinize (fa : Automaton) : Automaton :=
  let built := fa.powerset.toAutomaton LabelSet.describe
  if fa.powerset.initial.isNone then built else built.removeUseless.rename

end Automaton

end FiniteState
