import FiniteState.Automaton.Reach

/-!
# Reading words

A machine is in a set of states at once: those that it may have reached, closed under transitions
without reading.  It reads a symbol by taking all transitions on it, and it accepts a word when one
of the states at the end is accepting.

## Main definitions

* `Automaton.start` — the states before the first symbol.
* `Automaton.step` — the states after one more symbol.
* `Automaton.run` — the states after a word.
* `Automaton.accepts` — the word is accepted.
-/

namespace FiniteState.Automaton

/-- The states before the first symbol of a word. -/
def start (fa : Automaton) : LabelSet :=
  match fa.initial with
  | some q => fa.closure q
  | none => ∅

/-- The states reached from a set of states by transitions on a symbol, closed under transitions
without reading. -/
def step (fa : Automaton) (current : LabelSet) (s : Symbol) : LabelSet :=
  .unions (fun q => .unions fa.closure (fa.targets q s).toList) current.toList

/-- The states reached by reading a symbol.  The marker of the empty word cannot be read. -/
def read (fa : Automaton) (current : LabelSet) (s : Symbol) : LabelSet :=
  if Symbol.isEpsilon s then ∅ else fa.step current s

/-- The states reached from a set of states by reading a word. -/
def runFrom (fa : Automaton) (current : LabelSet) (word : List Symbol) : LabelSet :=
  word.foldl fa.read current

/-- The states reached by reading a word. -/
def run (fa : Automaton) (word : List Symbol) : LabelSet := fa.runFrom fa.start word

/-- One of the states accepts. -/
def meetsFinal (fa : Automaton) (current : LabelSet) : Bool := current.toList.any fa.isFinal

/-- The word is accepted. -/
def accepts (fa : Automaton) (word : List Symbol) : Bool := fa.meetsFinal (fa.run word)

@[simp] theorem runFrom_nil (fa : Automaton) (current : LabelSet) :
    fa.runFrom current [] = current := rfl

@[simp] theorem runFrom_cons (fa : Automaton) (current : LabelSet) (s : Symbol)
    (word : List Symbol) :
    fa.runFrom current (s :: word) = fa.runFrom (fa.read current s) word := rfl

theorem runFrom_append (fa : Automaton) (current : LabelSet) (u v : List Symbol) :
    fa.runFrom current (u ++ v) = fa.runFrom (fa.runFrom current u) v :=
  List.foldl_append

end FiniteState.Automaton
