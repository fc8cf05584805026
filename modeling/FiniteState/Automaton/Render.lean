import FiniteState.Automaton.Basic
import FiniteState.Text.Blank

/-!
# Automata as text

An automaton is shown as a table, with a header line of symbols and a line per state, or as a
directed graph in the DOT language.

## Main definitions

* `Automaton.table` — the table.  An arrow marks the initial state and a star the accepting ones;
  columns are as wide as their widest text, and texts are set to the right.
* `Automaton.dot` — the graph.  Accepting states are double circles, and the symbols between the
  same two states share an edge.
-/

namespace FiniteState.Automaton

/-! ### Tables -/

/-- The mark before the label of a state in the table. -/
def marker (fa : Automaton) (q : Label) : String :=
  (if fa.initial = some q then "->" else "") ++ (if fa.isFinal q then "*" else "")

/-- The texts of the header line. -/
def header (fa : Automaton) : List String := "δ" :: fa.alphabet.map Label.ofChar

/-- The texts of the line of a state. -/
def line (fa : Automaton) (q : Label) : List String :=
  (fa.marker q ++ q) :: fa.alphabet.map fun s => match fa.cell? q s with
    | some c => c.text
    | none => "-"

/-- The texts of all lines. -/
def grid (fa : Automaton) : List (List String) := fa.header :: fa.states.map fa.line

/-- The widths of the columns: the length of the longest text in each. -/
def columnWidths (grid : List (List String)) : List Nat :=
  match grid.map fun texts => texts.map String.length with
  | [] => []
  | first :: rest => rest.foldl (List.zipWith max) first

/-- A text set to the right in a column. -/
def padLeft (width : Nat) (text : String) : String :=
  String.ofList (List.replicate (width - text.length) ' ') ++ text

/-- A line of a table: the texts in their columns, without blanks at the end. -/
def renderLine (widths : List Nat) (texts : List String) : String :=
  let line := " | ".intercalate (List.zipWith padLeft widths texts)
  String.ofList (Text.trimEnd line.toList) ++ "\n"

/-- The transition table. -/
def table (fa : Automaton) : String :=
  let widths := columnWidths fa.grid
  String.join (fa.grid.map (renderLine widths))

/-! ### Graphs -/

/-- A label between quotation marks. -/
def quoteLabel (q : Label) : String := "\"" ++ q ++ "\""

/-- The transitions, each with its symbol, in the order of the table. -/
def transitions (fa : Automaton) : List ((Label × Label) × Symbol) :=
  fa.cells.flatMap fun (p, s, c) => c.targets.toList.map fun q => ((p, q), s)

/-- The symbols between the same two states, in the order of the first transition between them. -/
def edges (fa : Automaton) : List ((Label × Label) × List Symbol) :=
  let moves := fa.transitions
  (moves.map (·.1)).eraseDups.map fun ends =>
    (ends, moves.filterMap fun (ends', s) => if ends' = ends then some s else none)

/-- The statement of an edge. -/
def edgeStatement : (Label × Label) × List Symbol → String
  | ((p, q), symbols) =>
    "    " ++ quoteLabel p ++ " -> " ++ quoteLabel q ++ " [label = \"" ++
      ", ".intercalate (symbols.map Label.ofChar) ++ "\"];\n"

/-- The graph in the DOT language. -/
def dot (fa : Automaton) : String :=
  let finals := " ".intercalate (fa.finals.map quoteLabel)
  let inner := fa.states.filter fun q => !fa.isFinal q
  "digraph automaton \x7b\n    rankdir=LR;\n" ++
    (if fa.finals.isEmpty then "" else "    node [shape = doublecircle]; " ++ finals ++ ";\n") ++
    "    node [shape = circle];\n" ++
    String.join (inner.map fun q => "    " ++ quoteLabel q ++ ";\n") ++
    (match fa.initial with
      | some q => "    start [shape = point];\n    start -> " ++ quoteLabel q ++ ";\n"
      | none => "") ++
    String.join (fa.edges.map edgeStatement) ++
    "\x7d"

end FiniteState.Automaton
