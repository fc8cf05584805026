import FiniteState.Automaton.Error
import FiniteState.Automaton.Machine
import FiniteState.Automaton.Rename

/-!
# Union and intersection

Two deterministic automata are combined into one that accepts the words of either, or the words of
both.

For the union the left automaton is renamed apart from the right one, and both are put between a new
initial state, which moves to the two old ones without reading, and a new accepting state, to which
all old accepting states move without reading.  For the intersection both are run side by side on
the symbols they share.

## Main definitions

* `Automaton.joined` — two automata with different states between a new initial and a new accepting
  state.
* `Automaton.union` — the words of either automaton.
* `Automaton.pairs` — the machine that runs two automata side by side.
* `Automaton.intersection` — the words of both automata.
-/

namespace FiniteState.Automaton

/-- Both automata are flagged as deterministic. -/
def bothDeterminized (fa fb : Automaton) : Bool := fa.determinized && fb.determinized

/-! ### Union -/

/-- The symbols of both automata and the marker of the empty word, each once. -/
def joinedAlphabet (fa fb : Automaton) : List Symbol :=
  (fa.alphabet ++ fb.alphabet ++ [Symbol.epsilon]).eraseDups

/-- The cell of a state and a symbol, and an empty cell where there is none. -/
def cellD (fa : Automaton) (q : Label) (s : Symbol) : Cell := (fa.cell? q s).getD .empty

/-- A cell of an automaton that is put before a new accepting state: on the marker of the empty word
an old accepting state moves there, too. -/
def joinedCell (fa : Automaton) (accept : Label) (c : Cell) (q : Label) (s : Symbol) : Cell :=
  if Symbol.isEpsilon s && fa.isFinal q then c.mapTargets (·.insert accept) else c

/-- Two automata, whose states differ, between a new initial and a new accepting state.  Texts of
rejected edits are kept on the left only. -/
def joined (fa fb : Automaton) (start accept : Label) : Automaton :=
  let alphabet := joinedAlphabet fa fb
  let initials := LabelSet.ofList (fa.initial.toList ++ fb.initial.toList)
  { alphabet := alphabet
    rows :=
      tabulate alphabet fa.states (fun q s => fa.joinedCell accept (fa.cellD q s) q s) ++
      tabulate alphabet fb.states
        (fun q s => fb.joinedCell accept (.ofTargets (fb.targets q s)) q s) ++
      tabulate alphabet [start]
        (fun _ s => if Symbol.isEpsilon s then .ofTargets initials else .empty) ++
      tabulate alphabet [accept] fun _ _ => .empty
    initial := some start
    finals := [accept]
    determinized := false }

/-- An automaton for the words of either automaton. -/
def union (fa fb : Automaton) : Except AutomatonError Automaton :=
  if bothDeterminized fa fb then
    let (left, pool) := fa.renameWith (.excluding fb.states)
    let (start, pool) := pool.take
    let (accept, _) := pool.take
    .ok (joined left fb start accept)
  else .error (.notDeterministic .union)

/-! ### Intersection -/

/-- The machine that runs two automata side by side, over all pairs of their states. -/
def allPairs (fa fb : Automaton) : Machine (Label × Label) where
  alphabet := fa.alphabet.filter fb.hasSymbol
  states := fa.states.flatMap fun p => fb.states.map fun q => (p, q)
  step := fun (p, q) s =>
    match (fa.targets p s).first?, (fb.targets q s).first? with
    | some p', some q' => some (p', q')
    | _, _ => none
  initial :=
    match fa.initial, fb.initial with
    | some p, some q => some (p, q)
    | _, _ => none
  accepting := fun (p, q) => fa.isFinal p && fb.isFinal q

/-- The machine that runs two automata side by side, over the pairs that words lead to. -/
def pairs (fa fb : Automaton) : Machine (Label × Label) :=
  let all := allPairs fa fb
  let reached := explore all.successors all.states.length all.initial.toList
  { all with states := all.states.filter reached.contains }

/-- An automaton for the words of both automata. -/
def intersection (fa fb : Automaton) : Except AutomatonError Automaton :=
  if bothDeterminized fa fb then
    .ok ((pairs fa fb).toAutomaton fun (p, q) => p ++ q).rename
  else .error (.notDeterministic .intersection)

end FiniteState.Automaton
