import FiniteState.Symbol
import FiniteState.Label.Set

/-!
# Finite automata as tables

An automaton is a table with a row per state and a column per symbol.  A cell holds a *set* of
target states, so that one type serves deterministic and nondeterministic machines; a flag records
whether the last construction guaranteed a deterministic machine.  States and symbols are kept in
the order in which they were inserted.

## Main definitions

* `Cell` — the targets of a state on a symbol, and the text of a rejected edit.
* `Automaton` — the table with its initial state, final states and flag.
* `Automaton.states`, `Automaton.cell?`, `Automaton.targets`, `Automaton.cells` — its views.
* `Automaton.insertState`, `Automaton.insertSymbol`, `Automaton.modifyCell` — growth and change.
* `Automaton.keepStates`, `Automaton.keepSymbols` — restriction to some states or symbols.
* `Automaton.relabel` — other names for the states.
* `Automaton.same` — equality up to the order of insertion.
-/

namespace FiniteState

/-- A cell of the table: the targets, and the text of the last edit of the cell if that edit was
rejected. -/
structure Cell where
  targets : LabelSet
  rejected : Option String
  deriving DecidableEq

namespace Cell

/-- The cell without targets. -/
def empty : Cell := ⟨∅, none⟩

instance : Inhabited Cell := ⟨empty⟩

/-- The cell with the given targets. -/
def ofTargets (targets : LabelSet) : Cell := ⟨targets, none⟩

/-- The cell with at most one target. -/
def ofTarget? : Option Label → Cell
  | none => empty
  | some q => ofTargets (.singleton q)

/-- The cell has no targets. -/
def isEmpty (c : Cell) : Bool := c.targets.isEmpty

/-- The least target, which is the only one in a deterministic machine. -/
def target? (c : Cell) : Option Label := c.targets.first?

/-- The cell after a change of its targets. -/
def mapTargets (f : LabelSet → LabelSet) (c : Cell) : Cell := ⟨f c.targets, c.rejected⟩

/-- The text shown for a cell: a rejected text as it was given, otherwise the targets in order, and
a dash where there are none. -/
def text (c : Cell) : String :=
  match c.rejected with
  | some raw => raw
  | none => if c.isEmpty then "-" else ", ".intercalate c.targets.toList

end Cell

/-- The cells of one state, one per symbol. -/
abbrev Row := List (Symbol × Cell)

/-- A finite automaton. -/
structure Automaton where
  /-- The symbols, in order of insertion. -/
  alphabet : List Symbol
  /-- A row for each state, in order of insertion. -/
  rows : List (Label × Row)
  /-- The state in which words start to be read. -/
  initial : Option Label
  /-- The accepting states, in order of insertion. -/
  finals : List Label
  /-- The last construction guaranteed a deterministic machine. -/
  determinized : Bool
  deriving DecidableEq

namespace Automaton

/-- The automaton without states and symbols. -/
def empty : Automaton := ⟨[], [], none, [], false⟩

instance : Inhabited Automaton := ⟨empty⟩

/-! ### Views -/

/-- The states, in order of insertion. -/
def states (fa : Automaton) : List Label := fa.rows.map (·.1)

/-- The label names a state. -/
def hasState (fa : Automaton) (q : Label) : Bool := fa.states.contains q

/-- The symbol has a column. -/
def hasSymbol (fa : Automaton) (s : Symbol) : Bool := fa.alphabet.contains s

/-- The state accepts. -/
def isFinal (fa : Automaton) (q : Label) : Bool := fa.finals.contains q

/-- The cells of a state. -/
def row? (fa : Automaton) (q : Label) : Option Row := fa.rows.lookup q

/-- The cell of a state and a symbol. -/
def cell? (fa : Automaton) (q : Label) (s : Symbol) : Option Cell :=
  (fa.row? q).bind (·.lookup s)

/-- The targets of a state on a symbol; none where there is no such cell. -/
def targets (fa : Automaton) (q : Label) (s : Symbol) : LabelSet :=
  match fa.cell? q s with
  | some c => c.targets
  | none => ∅

/-- Every cell with its state and symbol, row by row. -/
def cells (fa : Automaton) : List (Label × Symbol × Cell) :=
  fa.rows.flatMap fun (q, row) => row.map fun (s, c) => (q, s, c)

/-- The state has a transition. -/
def hasOutgoing (fa : Automaton) (q : Label) : Bool :=
  match fa.row? q with
  | some row => row.any fun (_, c) => !c.isEmpty
  | none => false

/-- The marker of the empty word has a column. -/
def hasEpsilon (fa : Automaton) : Bool := fa.hasSymbol Symbol.epsilon

/-- No cell has two targets, and no state moves without reading. -/
def isDeterministic (fa : Automaton) : Bool :=
  fa.cells.all fun (_, s, c) => c.targets.size ≤ 1 && (!Symbol.isEpsilon s || c.isEmpty)

/-- Some cell has no target. -/
def hasUndefined (fa : Automaton) : Bool := fa.cells.any fun (_, _, c) => c.isEmpty

/-! ### Growth and change -/

/-- A table over the given symbols and states, filled by a function. -/
def tabulate (alphabet : List Symbol) (states : List Label) (cell : Label → Symbol → Cell) :
    List (Label × Row) :=
  states.map fun q => (q, alphabet.map fun s => (s, cell q s))

/-- The automaton with one more state, whose cells are empty. -/
def insertState (fa : Automaton) (q : Label) : Automaton :=
  if fa.hasState q then fa
  else { fa with rows := fa.rows ++ tabulate fa.alphabet [q] fun _ _ => .empty }

/-- The automaton with one more symbol, whose column is empty. -/
def insertSymbol (fa : Automaton) (s : Symbol) : Automaton :=
  if fa.hasSymbol s then fa
  else
    { fa with
      alphabet := fa.alphabet ++ [s]
      rows := fa.rows.map fun (q, row) => (q, row ++ [(s, .empty)]) }

/-- The automaton after a change of one cell. -/
def modifyCell (fa : Automaton) (q : Label) (s : Symbol) (f : Cell → Cell) : Automaton :=
  { fa with
    rows := fa.rows.map fun (p, row) =>
      if p = q then (p, row.map fun (t, c) => if t = s then (t, f c) else (t, c)) else (p, row) }

/-- The automaton restricted to the states that pass a test.  References to the other states are
dropped from the cells, from the final states and from the initial state. -/
def keepStates (fa : Automaton) (p : Label → Bool) : Automaton :=
  { fa with
    rows := (fa.rows.filter fun (q, _) => p q).map fun (q, row) =>
      (q, row.map fun (s, c) => (s, c.mapTargets (.filter p)))
    finals := fa.finals.filter p
    initial := fa.initial.filter p }

/-- The automaton restricted to the symbols that pass a test. -/
def keepSymbols (fa : Automaton) (p : Symbol → Bool) : Automaton :=
  { fa with
    alphabet := fa.alphabet.filter p
    rows := fa.rows.map fun (q, row) => (q, row.filter fun (s, _) => p s) }

/-- The automaton with other names for its states. -/
def relabel (fa : Automaton) (f : Label → Label) : Automaton :=
  { fa with
    rows := fa.rows.map fun (q, row) => (f q, row.map fun (s, c) => (s, c.mapTargets (.map f)))
    finals := fa.finals.map f
    initial := fa.initial.map f }

/-- The automaton flagged as deterministic, or not. -/
def withDeterminized (fa : Automaton) (flag : Bool) : Automaton := { fa with determinized := flag }

/-! ### Equality up to order -/

/-- Two lists have the same members. -/
def sameMembers {α : Type} [BEq α] (xs ys : List α) : Bool :=
  xs.all ys.contains && ys.all xs.contains

/-- Two lists of pairs have the same keys, with matching values. -/
def sameEntries {κ β : Type} [BEq κ] (match? : β → β → Bool) (xs ys : List (κ × β)) : Bool :=
  sameMembers (xs.map (·.1)) (ys.map (·.1)) &&
    xs.all fun (k, x) => match ys.lookup k with
      | some y => match? x y
      | none => false

/-- Two automata are the same up to the order in which states, symbols and final states were
inserted.  The flags and the texts of rejected edits count. -/
def same (fa fb : Automaton) : Bool :=
  sameMembers fa.alphabet fb.alphabet &&
    sameEntries (sameEntries fun c d => c == d) fa.rows fb.rows &&
    fa.initial == fb.initial &&
    sameMembers fa.finals fb.finals &&
    fa.determinized == fb.determinized

end Automaton

end FiniteState
