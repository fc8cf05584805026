import FiniteState.Automaton.Machine
import FiniteState.Automaton.Rename
import FiniteState.Regex.Parser
import FiniteState.Regex.Position

/-!
# The automaton of a regular expression

The states are sets of positions: those that the next symbol can be read at.  Before the first
symbol these are the positions that begin a word.  A symbol leads from a set to the positions that
can follow the positions of the set that carry the symbol, and a set that holds the end marker
accepts.

## Main definitions

* `Regex.PositionTable.machine` — the machine over sets of positions.
* `Regex.PositionTable.automaton` — that machine as an automaton, with short names.
* `Regex.compile` — the automaton of a text.
-/

namespace FiniteState.Regex

namespace PositionTable

/-- The positions that follow the positions of a set that carry a symbol, if there are any. -/
def step (t : PositionTable) (current : NatSet) (s : Symbol) : Option NatSet :=
  let carriers := current.toList.filter fun p => t.symbol? p == some s
  let next := carriers.foldl (fun acc p => acc.union ((t.follow? p).getD ∅)) ∅
  if next.isEmpty then none else some next

/-- The machine over the sets of positions that are discovered from the positions that begin a
word.  It has no more states than there are sets of positions. -/
def machine (t : PositionTable) : Machine NatSet :=
  Machine.discovered
    { alphabet := t.alphabet
      states := []
      step := t.step
      initial := some t.root.facts.first
      accepting := fun current => current.contains t.endMarker }
    (1 <<< t.size)

/-- The description of a set of positions: its members between braces. -/
def describe (positions : NatSet) : Label :=
  "\x7b" ++ ",".intercalate (positions.toList.map toString) ++ "\x7d"

/-- The automaton over sets of positions, with short names. -/
def automaton (t : PositionTable) : Automaton := (t.machine.toAutomaton describe).rename

end PositionTable

/-- The deterministic automaton of a text that is a regular expression. -/
def compile (text : List Char) : Except (Located ParseError) Automaton := do
  let e ← parse text
  return (PositionTable.ofExpr e).automaton

end FiniteState.Regex
