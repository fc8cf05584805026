import FiniteState.Proofs.Automaton.Trimming
import FiniteState.Proofs.Split.Embedding

/-!
# Trimming and renaming in two collections

States that are of no use are deleted one after the other, and so are symbols; names from a pool
replace all labels at once.  What is to be deleted, and which names there are, is read off the
states, while the deletions go through both collections.

## Main definitions

* `SplitAutomaton.pruneUnusedSymbols`, `SplitAutomaton.removeUseless`,
  `SplitAutomaton.removeUnreachable` — deletion of what is of no use.
* `SplitAutomaton.renameWith`, `SplitAutomaton.rename` — names from a pool.

## Main results

* `InStep.removeUseless`, `InStep.renameWith` and the others of this form — **both collections
  are trimmed and renamed alike**.
* `WellFormed.split_removeUseless`, `WellFormed.split_rename` and the others of this form —
  on a well-formed table this is what the running definitions do.
-/

namespace FiniteState

namespace SplitAutomaton

/-- Some row has a target on the symbol. -/
def usesSymbol (a : SplitAutomaton) (s : Symbol) : Bool :=
  a.transitions.any fun (_, row) => match row.lookup s with
    | some c => !c.isEmpty
    | none => false

/-- Deletes the symbols that no row uses, one after the other. -/
def pruneUnusedSymbols (a : SplitAutomaton) : SplitAutomaton :=
  (a.alphabet.filter fun s => !a.usesSymbol s).foldl deleteSymbol a

/-- Deletes the states that do not reach an accepting state, one after the other, and then the
symbols that no row uses. -/
def removeUseless (a : SplitAutomaton) : SplitAutomaton :=
  ((a.states.filter fun q => !a.table.coreachable.contains q).foldl deleteState a)
    |>.pruneUnusedSymbols

/-- Deletes the states that are not reached from the initial state, one after the other. -/
def removeUnreachable (a : SplitAutomaton) : SplitAutomaton :=
  (a.states.filter fun q => !a.table.reachableFromInitial.contains q).foldl deleteState a

/-- The automaton with names from a pool, and the pool without the names that were handed out. -/
def renameWith (a : SplitAutomaton) (pool : LabelPool) : SplitAutomaton × LabelPool :=
  let (names, pool) := pool.names a.states
  (a.relabel fun q => (names.lookup q).getD q, pool)

/-- The automaton with the shortest names. -/
def rename (a : SplitAutomaton) : SplitAutomaton := (a.renameWith .full).1

variable {a : SplitAutomaton}

namespace InStep

variable (h : a.InStep)

include h

theorem foldl_deleteState (qs : List Label) :
    (qs.foldl SplitAutomaton.deleteState a).InStep := by
  induction qs generalizing a with
  | nil => exact h
  | cons q qs ih => exact ih (h.deleteState q)

theorem foldl_deleteSymbol (ss : List Symbol) :
    (ss.foldl SplitAutomaton.deleteSymbol a).InStep := by
  induction ss generalizing a with
  | nil => exact h
  | cons s ss ih => exact ih (h.deleteSymbol s)

theorem pruneUnusedSymbols : a.pruneUnusedSymbols.InStep := h.foldl_deleteSymbol _

theorem removeUseless : a.removeUseless.InStep := (h.foldl_deleteState _).pruneUnusedSymbols

theorem removeUnreachable : a.removeUnreachable.InStep := h.foldl_deleteState _

theorem renameWith (pool : LabelPool) : (a.renameWith pool).1.InStep := h.relabel _

theorem rename : a.rename.InStep := h.renameWith .full

end InStep

end SplitAutomaton

/-! ### One list of rows -/

namespace Automaton.WellFormed

variable {fa : Automaton} (h : fa.WellFormed)

include h

/-- A well-formed table is what is read of its two collections. -/
theorem table_split : fa.split.table = fa :=
  ext rfl (fa.inStep_split.rows_table h.states_nodup) rfl rfl rfl

theorem split_foldl_deleteState (qs : List Label) :
    (qs.foldl Automaton.deleteState fa).split =
      qs.foldl SplitAutomaton.deleteState fa.split := by
  induction qs generalizing fa with
  | nil => rfl
  | cons q qs ih =>
    rw [List.foldl_cons, List.foldl_cons, ← h.split_deleteState]
    exact ih (h.keepStates _)

theorem split_foldl_deleteSymbol (ss : List Symbol) :
    (ss.foldl Automaton.deleteSymbol fa).split =
      ss.foldl SplitAutomaton.deleteSymbol fa.split := by
  induction ss generalizing fa with
  | nil => rfl
  | cons s ss ih =>
    rw [List.foldl_cons, List.foldl_cons, ← h.split_deleteSymbol]
    exact ih (h.keepSymbols _)

theorem split_pruneUnusedSymbols :
    fa.pruneUnusedSymbols.split = fa.split.pruneUnusedSymbols := by
  rw [Automaton.pruneUnusedSymbols, h.keepSymbols_eq_foldl, h.split_foldl_deleteSymbol]
  rfl

theorem split_removeUseless : fa.removeUseless.split = fa.split.removeUseless := by
  rw [Automaton.removeUseless, (h.keepStates _).split_pruneUnusedSymbols, h.keepStates_eq_foldl,
    h.split_foldl_deleteState, SplitAutomaton.removeUseless, h.table_split]
  rfl

theorem split_removeUnreachable :
    fa.removeUnreachable.split = fa.split.removeUnreachable := by
  rw [h.removeUnreachable_eq_foldl, h.split_foldl_deleteState, SplitAutomaton.removeUnreachable,
    h.table_split]
  rfl

theorem split_renameWith (pool : LabelPool) :
    (fa.renameWith pool).1.split = (fa.split.renameWith pool).1 :=
  h.split_relabel (h.injOn_newName pool)

theorem split_rename : fa.rename.split = fa.split.rename := h.split_renameWith .full

end Automaton.WellFormed

end FiniteState
