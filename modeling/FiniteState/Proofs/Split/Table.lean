import FiniteState.Automaton.Command
import FiniteState.Proofs.List

/-!
# Automata that keep their states apart from their rows

An automaton can keep its states in one collection and the rows of its table in another one.  Both
are in the order of insertion, and every operation that adds, deletes or renames a state has to do
so in both.  A row that is left behind would be written over when its state comes back, and
a state without a row would have no cells.

The operations are those by which everything else is built: states and symbols are inserted, a cell
gets a target, marks are set, states and symbols are deleted, and all states are renamed at once.

## Main definitions

* `insertNew`, `put`, `insertAll`, `putAll` — collections in the order of insertion.
* `SplitAutomaton` — the automaton in two collections, with the operations.
* `SplitAutomaton.table` — what is read: the states, with the rows that are kept for them.
* `SplitAutomaton.InStep` — the rows are those of the states, in the same order.

## Main results

* `InStep.insertState`, `InStep.deleteState`, `InStep.relabel` — **the operations change both
  collections alike**.
-/

namespace FiniteState

/-! ### Collections in the order of insertion -/

section Collections

variable {α κ β : Type} [DecidableEq α] [DecidableEq κ]

/-- The members with one more at the end, unless it is one of them. -/
def insertNew (l : List α) (x : α) : List α := if x ∈ l then l else l ++ [x]

/-- The distinct members of a list, in the order in which they first appear. -/
def insertAll (l : List α) : List α := l.foldl insertNew []

/-- The entries with a value under a key: the value takes the place of an old one, or is put
at the end. -/
def put (k : κ) (v : β) : List (κ × β) → List (κ × β)
  | [] => [(k, v)]
  | e :: rest => if e.1 = k then (k, v) :: rest else e :: put k v rest

/-- Entries put in one after the other. -/
def putAll (l : List (κ × β)) : List (κ × β) :=
  l.foldl (fun entries e => put e.1 e.2 entries) []

/-- The entries after a change of the value under a key. -/
def modifyEntry (k : κ) (f : β → β) (l : List (κ × β)) : List (κ × β) :=
  l.map fun e => if e.1 = k then (e.1, f e.2) else e

/-- The entries without the one under a key. -/
def eraseEntry (k : κ) (l : List (κ × β)) : List (κ × β) := l.eraseP fun e => e.1 = k

theorem insertNew_of_mem {l : List α} {x : α} (h : x ∈ l) : insertNew l x = l := if_pos h

theorem insertNew_of_notMem {l : List α} {x : α} (h : x ∉ l) : insertNew l x = l ++ [x] :=
  if_neg h

theorem map_fst_put (k : κ) (v : β) (l : List (κ × β)) :
    (put k v l).map Prod.fst = insertNew (l.map Prod.fst) k := by
  induction l with
  | nil => rfl
  | cons e l ih =>
    rw [put]
    by_cases he : e.1 = k
    · simp [insertNew, he]
    · rw [if_neg he, List.map_cons, ih, insertNew, insertNew]
      by_cases hk : k ∈ l.map Prod.fst
      · rw [if_pos hk, List.map_cons, if_pos (List.mem_cons_of_mem _ hk)]
      · rw [if_neg hk, List.map_cons, if_neg (by simpa [Ne.symm he] using hk)]
        rfl

theorem map_fst_putAll (l : List (κ × β)) :
    (putAll l).map Prod.fst = insertAll (l.map Prod.fst) := by
  have key (entries : List (κ × β)) :
      (l.foldl (fun entries e => put e.1 e.2 entries) entries).map Prod.fst =
        (l.map Prod.fst).foldl insertNew (entries.map Prod.fst) := by
    induction l generalizing entries with
    | nil => rfl
    | cons e l ih => rw [List.foldl_cons, ih, map_fst_put, List.map_cons, List.foldl_cons]
  exact key []

theorem map_fst_modifyEntry (k : κ) (f : β → β) (l : List (κ × β)) :
    (modifyEntry k f l).map Prod.fst = l.map Prod.fst := by
  rw [modifyEntry, List.map_map]
  refine List.map_congr_left fun e _ => ?_
  rw [Function.comp_apply]
  split <;> rfl

theorem map_fst_eraseEntry (k : κ) (l : List (κ × β)) :
    (eraseEntry k l).map Prod.fst = (l.map Prod.fst).erase k := by
  induction l with
  | nil => rfl
  | cons e l ih =>
    rw [eraseEntry, List.eraseP_cons, List.map_cons, List.erase_cons]
    by_cases he : e.1 = k
    · simp [he]
    · simpa [he, eraseEntry] using ih

end Collections

/-! ### The automaton -/

/-- An automaton that keeps its states apart from its rows. -/
structure SplitAutomaton where
  /-- The states, in order of insertion. -/
  states : List Label
  /-- The symbols, in order of insertion. -/
  alphabet : List Symbol
  /-- The rows under the labels of their states. -/
  transitions : List (Label × Row)
  /-- The state in which words start to be read. -/
  initial : Option Label
  /-- The accepting states, in order of insertion. -/
  finals : List Label
  /-- The last construction guaranteed a deterministic machine. -/
  determinized : Bool

namespace SplitAutomaton

/-- The automaton without states and symbols. -/
def empty : SplitAutomaton := ⟨[], [], [], none, [], false⟩

/-- What is read of an automaton: its states, each with the row that is kept for it. -/
def table (a : SplitAutomaton) : Automaton where
  alphabet := a.alphabet
  rows := a.states.map fun q => (q, (a.transitions.lookup q).getD [])
  initial := a.initial
  finals := a.finals
  determinized := a.determinized

/-! ### Growth and change -/

/-- The automaton with one more state, whose cells are empty. -/
def insertState (a : SplitAutomaton) (q : Label) : SplitAutomaton :=
  if a.states.contains q then a
  else
    { a with
      states := insertNew a.states q
      transitions := put q (a.alphabet.map fun s => (s, .empty)) a.transitions }

/-- The automaton with one more symbol, whose column is empty. -/
def insertSymbol (a : SplitAutomaton) (s : Symbol) : SplitAutomaton :=
  if a.alphabet.contains s then a
  else
    { a with
      alphabet := insertNew a.alphabet s
      transitions := a.transitions.map fun e => (e.1, put s .empty e.2) }

/-- The automaton after a change of one cell. -/
def modifyCell (a : SplitAutomaton) (q : Label) (s : Symbol) (f : Cell → Cell) :
    SplitAutomaton :=
  { a with transitions := modifyEntry q (modifyEntry s f) a.transitions }

/-- The automaton with one more transition, and with its states and its symbol. -/
def addTransition (a : SplitAutomaton) (q : Label) (s : Symbol) (r : Label) : SplitAutomaton :=
  (((a.insertState q).insertState r).insertSymbol s).modifyCell q s
    (·.mapTargets (·.insert r))

/-- The automaton with one more accepting state. -/
def insertFinal (a : SplitAutomaton) (q : Label) : SplitAutomaton :=
  { a.insertState q with finals := insertNew a.finals q }

/-- Takes the mark of an accepting state away. -/
def removeFinal (a : SplitAutomaton) (q : Label) : SplitAutomaton :=
  { a with finals := a.finals.erase q }

/-- The automaton with another initial state, or with none. -/
def replaceInitial (a : SplitAutomaton) : Option Label → SplitAutomaton
  | none => { a with initial := none }
  | some q => { a.insertState q with initial := some q }

/-- The automaton flagged as deterministic, or not. -/
def withDeterminized (a : SplitAutomaton) (flag : Bool) : SplitAutomaton :=
  { a with determinized := flag }

/-! ### Deletion and renaming -/

/-- Deletes a state, its row and every reference to it. -/
def deleteState (a : SplitAutomaton) (q : Label) : SplitAutomaton :=
  if a.states.contains q then
    { a with
      states := a.states.erase q
      transitions := (eraseEntry q a.transitions).map fun e =>
        (e.1, e.2.map fun x => (x.1, x.2.mapTargets (.filter (· != q))))
      finals := a.finals.erase q
      initial := if a.initial = some q then none else a.initial }
  else a

/-- Deletes a symbol and its column. -/
def deleteSymbol (a : SplitAutomaton) (s : Symbol) : SplitAutomaton :=
  if a.alphabet.contains s then
    { a with
      alphabet := a.alphabet.erase s
      transitions := a.transitions.map fun e => (e.1, eraseEntry s e.2) }
  else a

/-- The automaton with other names for its states.  States that get one name become one, and of
their rows the last one is kept. -/
def relabel (a : SplitAutomaton) (f : Label → Label) : SplitAutomaton :=
  { a with
    states := insertAll (a.states.map f)
    transitions := putAll (a.transitions.map fun e =>
      (f e.1, e.2.map fun x => (x.1, x.2.mapTargets (.map f))))
    finals := insertAll (a.finals.map f)
    initial := a.initial.map f }

variable {a : SplitAutomaton} {q : Label} {s : Symbol}

theorem insertState_of_mem (h : q ∈ a.states) : a.insertState q = a :=
  if_pos (List.contains_iff_mem.2 h)

theorem insertState_of_notMem (h : q ∉ a.states) : a.insertState q =
    { a with
      states := a.states ++ [q]
      transitions := put q (a.alphabet.map fun s => (s, .empty)) a.transitions } := by
  rw [insertState, if_neg (mt List.contains_iff_mem.1 h), insertNew_of_notMem h]

theorem insertSymbol_of_mem (h : s ∈ a.alphabet) : a.insertSymbol s = a :=
  if_pos (List.contains_iff_mem.2 h)

theorem insertSymbol_of_notMem (h : s ∉ a.alphabet) : a.insertSymbol s =
    { a with
      alphabet := a.alphabet ++ [s]
      transitions := a.transitions.map fun e => (e.1, put s .empty e.2) } := by
  rw [insertSymbol, if_neg (mt List.contains_iff_mem.1 h), insertNew_of_notMem h]

theorem deleteState_of_mem (h : q ∈ a.states) : a.deleteState q =
    { a with
      states := a.states.erase q
      transitions := (eraseEntry q a.transitions).map fun e =>
        (e.1, e.2.map fun x => (x.1, x.2.mapTargets (.filter (· != q))))
      finals := a.finals.erase q
      initial := if a.initial = some q then none else a.initial } :=
  if_pos (List.contains_iff_mem.2 h)

theorem deleteState_of_notMem (h : q ∉ a.states) : a.deleteState q = a :=
  if_neg (mt List.contains_iff_mem.1 h)

theorem deleteSymbol_of_mem (h : s ∈ a.alphabet) : a.deleteSymbol s =
    { a with
      alphabet := a.alphabet.erase s
      transitions := a.transitions.map fun e => (e.1, eraseEntry s e.2) } :=
  if_pos (List.contains_iff_mem.2 h)

theorem deleteSymbol_of_notMem (h : s ∉ a.alphabet) : a.deleteSymbol s = a :=
  if_neg (mt List.contains_iff_mem.1 h)

/-! ### Both collections -/

/-- **The rows are those of the states**, in the same order. -/
def InStep (a : SplitAutomaton) : Prop := a.transitions.map Prod.fst = a.states

theorem inStep_empty : empty.InStep := rfl

namespace InStep

variable (h : a.InStep)

include h

/-- The rows that are kept are the ones that are read. -/
theorem rows_table (hnd : a.states.Nodup) : a.table.rows = a.transitions := by
  have hkeys : (a.transitions.map Prod.fst).Nodup := by rwa [h]
  have hrow : ∀ e ∈ a.transitions, (e.1, (a.transitions.lookup e.1).getD []) = e := by
    intro e he
    rw [List.lookup_eq_some_of_mem hkeys he, Option.getD_some]
  show (a.states.map fun q => (q, (a.transitions.lookup q).getD [])) = a.transitions
  rw [← h, List.map_map]
  exact (List.map_congr_left hrow).trans (List.map_id _)

theorem insertState (q : Label) : (a.insertState q).InStep := by
  by_cases hq : q ∈ a.states
  · rwa [insertState_of_mem hq]
  · rw [insertState_of_notMem hq, InStep, map_fst_put, h, insertNew_of_notMem hq]

theorem insertSymbol (s : Symbol) : (a.insertSymbol s).InStep := by
  by_cases hs : s ∈ a.alphabet
  · rwa [insertSymbol_of_mem hs]
  · rw [insertSymbol_of_notMem hs, InStep, List.map_map]
    exact h

theorem modifyCell (q : Label) (s : Symbol) (f : Cell → Cell) : (a.modifyCell q s f).InStep :=
  (map_fst_modifyEntry q (modifyEntry s f) a.transitions).trans h

theorem addTransition (q : Label) (s : Symbol) (r : Label) : (a.addTransition q s r).InStep :=
  (((h.insertState q).insertState r).insertSymbol s).modifyCell q s _

theorem insertFinal (q : Label) : (a.insertFinal q).InStep := h.insertState q

theorem removeFinal (q : Label) : (a.removeFinal q).InStep := h

theorem replaceInitial (q? : Option Label) : (a.replaceInitial q?).InStep := by
  cases q? with
  | none => exact h
  | some q => exact h.insertState q

theorem withDeterminized (flag : Bool) : (a.withDeterminized flag).InStep := h

/-- **A state goes with its row.** -/
theorem deleteState (q : Label) : (a.deleteState q).InStep := by
  by_cases hq : q ∈ a.states
  · rw [deleteState_of_mem hq, InStep, List.map_map, ← h]
    exact map_fst_eraseEntry q a.transitions
  · rwa [deleteState_of_notMem hq]

theorem deleteSymbol (s : Symbol) : (a.deleteSymbol s).InStep := by
  by_cases hs : s ∈ a.alphabet
  · rw [deleteSymbol_of_mem hs, InStep, List.map_map]
    exact h
  · rwa [deleteSymbol_of_notMem hs]

/-- **States and rows are renamed alike**, even where two states get one name. -/
theorem relabel (f : Label → Label) : (a.relabel f).InStep := by
  rw [InStep, SplitAutomaton.relabel, map_fst_putAll, List.map_map, ← h, List.map_map]
  rfl

end InStep

end SplitAutomaton

end FiniteState
