import FiniteState.Automaton.Basic
import FiniteState.Label.Pool

/-!
# Short names for the states

A state that is named by a free letter keeps its name, and every other state takes the least free
label of a pool, in the order of the states.

## Main definitions

* `Automaton.renameWith` — new names from a pool, and the pool that is left.
* `Automaton.rename` — new names from the pool in which every label is free.
-/

namespace FiniteState.Automaton

/-- The automaton with names from a pool, and the pool without the names that were handed out. -/
def renameWith (fa : Automaton) (pool : LabelPool) : Automaton × LabelPool :=
  let (names, pool) := pool.names fa.states
  (fa.relabel fun q => (names.lookup q).getD q, pool)

/-- The automaton with the shortest names. -/
def rename (fa : Automaton) : Automaton := (fa.renameWith .full).1

end FiniteState.Automaton
