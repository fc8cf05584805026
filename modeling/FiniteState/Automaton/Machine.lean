import FiniteState.Automaton.Basic
import FiniteState.Label.Primed
import FiniteState.Traversal

/-!
# Deterministic machines over any states

The constructions of the library work on states that are not labels: sets of states, sets of
positions, pairs of states, numbers.  They produce a *machine* over such states, which becomes an
automaton once every state has a label.  Labels come from a description of the states, and primes
tell states with the same description apart.

## Main definitions

* `Machine` — a deterministic machine over states of any type, with a partial transition function.
* `Machine.accepts` — the words that it accepts.
* `Machine.discovered` — the machine whose states are those discovered from an initial one.
* `Machine.toAutomaton` — the automaton of a machine.
-/

namespace FiniteState

/-- A deterministic machine over states of any type. -/
structure Machine (κ : Type) where
  /-- The symbols, in order. -/
  alphabet : List Symbol
  /-- The states, in order. -/
  states : List κ
  /-- The state that a symbol leads to, if there is one. -/
  step : κ → Symbol → Option κ
  /-- The state in which words start to be read. -/
  initial : Option κ
  /-- The state accepts. -/
  accepting : κ → Bool

namespace Machine

variable {κ : Type}

/-- The state that a word leads to, if there is one. -/
def runFrom (m : Machine κ) (k : κ) : List Symbol → Option κ
  | [] => some k
  | s :: word => if m.alphabet.contains s then (m.step k s).bind fun l => m.runFrom l word else none

/-- The word leads from the initial state to one that accepts. -/
def accepts (m : Machine κ) (word : List Symbol) : Bool :=
  (m.initial.bind fun k => m.runFrom k word).any m.accepting

variable [DecidableEq κ]

/-- The states that the symbols lead to, in the order of the symbols. -/
def successors (m : Machine κ) (k : κ) : List κ := m.alphabet.filterMap (m.step k)

/-- The machine over the states discovered from the initial one, in the order of discovery, when
there are at most `bound` of them. -/
def discovered (m : Machine κ) (bound : Nat) : Machine κ :=
  { m with states := explore m.successors bound m.initial.toList }

/-- The automaton of a machine: each state gets its description as a label, with primes where the
description is taken. -/
def toAutomaton (m : Machine κ) (describe : κ → Label) : Automaton :=
  let names := Label.distinct describe m.states
  { alphabet := m.alphabet
    rows := names.map fun (k, l) =>
      (l, m.alphabet.map fun s => (s, .ofTarget? ((m.step k s).bind (names.lookup ·))))
    initial := m.initial.bind (names.lookup ·)
    finals := (names.filter fun (k, _) => m.accepting k).map (·.2)
    determinized := true }

end Machine

end FiniteState
