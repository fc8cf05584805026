import FiniteState.Automaton.Basic
import FiniteState.Automaton.Error
import FiniteState.Text.Blank

/-!
# Editing an automaton

States, symbols and marks are added and removed one at a time, and a cell is edited as a text: a
comma-separated list of states.  A text that is no such list is kept on its cell to be shown, and
the targets stay as they were.

## Main definitions

* `Cell.parseTargets` — the targets that a cell text lists, if it is such a list.
* `Automaton.addState`, `Automaton.addSymbol`, `Automaton.deleteState`, `Automaton.deleteSymbol`,
  `Automaton.setInitial`, `Automaton.addFinal`, `Automaton.removeFinal` — the simple edits.
* `Automaton.setTargets`, `Automaton.rejectText` — the two ends of an edit of a cell.
-/

namespace FiniteState

/-! ### Cell texts -/

namespace Cell

/-- A dash at the front of a cell text means nothing. -/
def dropDash : List Char → List Char
  | '-' :: rest => rest
  | text => text

/-- The targets that a list of segments names.  The first and the last segment must name a state;
between them an empty segment is passed over. -/
def targetsOfSegments (segments : List (List Char)) : Option LabelSet :=
  if segments.head?.any (·.isEmpty) || segments.getLast?.any (·.isEmpty) then none
  else
    let named := segments.filter fun segment => !segment.isEmpty
    if named.all Label.isValidText then some (.ofList (named.map String.ofList)) else none

/-- The targets that a cell text lists: labels with commas between them, or nothing at all.  Blank
characters are ignored, and so is one dash at the front. -/
def parseTargets (text : List Char) : Option LabelSet :=
  let text := dropDash (text.filter fun c => !Text.isBlank c)
  if text.isEmpty then some ∅ else targetsOfSegments (text.splitOn ',')

end Cell

/-! ### Edits -/

namespace Automaton

/-- Adds a state, if its label is one that an editor accepts. -/
def addState (fa : Automaton) (q : Label) : Except AutomatonError Automaton :=
  if Label.isValid q then .ok (fa.insertState q) else .error (.invalidStateLabel q)

/-- Adds a symbol, if a transition can carry it. -/
def addSymbol (fa : Automaton) (s : Symbol) : Except AutomatonError Automaton :=
  if Symbol.isTransitionSymbol s then .ok (fa.insertSymbol s) else .error (.invalidSymbol s)

/-- Deletes a state and every reference to it. -/
def deleteState (fa : Automaton) (q : Label) : Automaton := fa.keepStates (· != q)

/-- Deletes a symbol and its column. -/
def deleteSymbol (fa : Automaton) (s : Symbol) : Automaton := fa.keepSymbols (· != s)

/-- Makes an existing state the initial one. -/
def setInitial (fa : Automaton) (q : Label) : Except AutomatonError Automaton :=
  if fa.hasState q then .ok { fa with initial := some q } else .error (.unknownState q)

/-- Marks a state as accepting. -/
def insertFinal (fa : Automaton) (q : Label) : Automaton :=
  if fa.isFinal q then fa else { fa with finals := fa.finals ++ [q] }

/-- Marks an existing state as accepting. -/
def addFinal (fa : Automaton) (q : Label) : Except AutomatonError Automaton :=
  if fa.hasState q then .ok (fa.insertFinal q) else .error (.unknownState q)

/-- Takes the mark of an accepting state away. -/
def removeFinal (fa : Automaton) (q : Label) : Automaton :=
  { fa with finals := fa.finals.filter (· != q) }

/-- Gives a cell new targets.  Targets that are not states yet become states, a rejected text is
forgotten, and the machine no longer counts as determinized. -/
def setTargets (fa : Automaton) (q : Label) (s : Symbol) (targets : LabelSet) : Automaton :=
  ((targets.toList.foldl insertState fa).modifyCell q s fun _ => .ofTargets targets)
    |>.withDeterminized false

/-- Keeps a rejected text on its cell. -/
def rejectText (fa : Automaton) (q : Label) (s : Symbol) (text : String) : Automaton :=
  fa.modifyCell q s fun c => ⟨c.targets, some text⟩

end Automaton

end FiniteState
