import FiniteState.Proofs.Automaton.Change
import FiniteState.Proofs.Split.Copied
import FiniteState.Proofs.Split.Merged
import FiniteState.Proofs.Split.Pairs

/-!
# Commands in two collections

A command checks its arguments against the states and the symbols, and then changes both
collections, or one of them, or none.  The other automaton of a union or an intersection is only
read, so that a command holds what is read of it.

## Main definitions

* `SplitAutomaton.apply` — the effect of a command on both collections.
* `Outcome.split` — an outcome in two collections.

## Main results

* `SplitAutomaton.InStep.apply` — **a command changes both collections alike**, whether it
  succeeds or fails.
* `Automaton.WellFormed.split_apply` — **it reports and does what the running definition does**.
-/

namespace FiniteState

/-- What a command reports, and the automaton in two collections after it. -/
structure SplitOutcome where
  /-- Whether the command changed anything, or why it failed. -/
  report : Except AutomatonError Bool
  automaton : SplitAutomaton

namespace SplitAutomaton

/-! ### Edits -/

/-- Adds a state, if its label is one that an editor accepts. -/
def addState (a : SplitAutomaton) (q : Label) : Except AutomatonError SplitAutomaton :=
  if Label.isValid q then .ok (a.insertState q) else .error (.invalidStateLabel q)

/-- Adds a symbol, if a transition can carry it. -/
def addSymbol (a : SplitAutomaton) (s : Symbol) : Except AutomatonError SplitAutomaton :=
  if Symbol.isTransitionSymbol s then .ok (a.insertSymbol s) else .error (.invalidSymbol s)

/-- Makes an existing state the initial one. -/
def setInitial (a : SplitAutomaton) (q : Label) : Except AutomatonError SplitAutomaton :=
  if a.states.contains q then .ok { a with initial := some q } else .error (.unknownState q)

/-- Marks an existing state as accepting. -/
def addFinal (a : SplitAutomaton) (q : Label) : Except AutomatonError SplitAutomaton :=
  if a.states.contains q then .ok { a with finals := insertNew a.finals q }
  else .error (.unknownState q)

/-- Gives a cell new targets.  Targets that are not states yet become states, a rejected text is
forgotten, and the machine no longer counts as determinized. -/
def setTargets (a : SplitAutomaton) (q : Label) (s : Symbol) (targets : LabelSet) :
    SplitAutomaton :=
  ((targets.toList.foldl insertState a).modifyCell q s fun _ => .ofTargets targets)
    |>.withDeterminized false

/-- Keeps a rejected text on its cell. -/
def rejectText (a : SplitAutomaton) (q : Label) (s : Symbol) (text : String) : SplitAutomaton :=
  a.modifyCell q s fun c => ⟨c.targets, some text⟩

/-! ### Outcomes -/

/-- Two automata are the same up to the order of insertion, in each of their collections. -/
def same (a b : SplitAutomaton) : Bool :=
  Automaton.sameMembers a.states b.states &&
    Automaton.sameMembers a.alphabet b.alphabet &&
    Automaton.sameEntries (Automaton.sameEntries fun c d => c == d) a.transitions b.transitions &&
    a.initial == b.initial &&
    Automaton.sameMembers a.finals b.finals &&
    a.determinized == b.determinized

/-- The outcome of an edit: the automaton changes where the edit succeeds. -/
def edited (a : SplitAutomaton) (changed : Bool) :
    Except AutomatonError SplitAutomaton → SplitOutcome
  | .ok result => ⟨.ok changed, result⟩
  | .error cause => ⟨.error cause, a⟩

/-- The outcome of a construction, which has changed something when its result is not the same. -/
def replaced (a : SplitAutomaton) : Except AutomatonError SplitAutomaton → SplitOutcome
  | .ok result => ⟨.ok (!a.same result), result⟩
  | .error cause => ⟨.error cause, a⟩

/-- The outcome of an edit of a cell. -/
def updateTransition (a : SplitAutomaton) (q : Label) (s : Symbol) (text : String) :
    SplitOutcome :=
  if !a.states.contains q then ⟨.error (.unknownState q), a⟩
  else if !a.alphabet.contains s then ⟨.error (.unknownSymbol s), a⟩
  else
    match Cell.parseTargets text.toList with
    | some targets => ⟨.ok true, a.setTargets q s targets⟩
    | none => ⟨.error (.invalidTransitionText text), a.rejectText q s text⟩

/-- The effect of a command. -/
def apply (a : SplitAutomaton) : Command → SplitOutcome
  | .addState q => a.edited (!a.states.contains q) (a.addState q)
  | .deleteState q => ⟨.ok (a.states.contains q), a.deleteState q⟩
  | .addSymbol s => a.edited (!a.alphabet.contains s) (a.addSymbol s)
  | .deleteSymbol s => ⟨.ok (a.alphabet.contains s), a.deleteSymbol s⟩
  | .setInitial q => a.edited (a.initial != some q) (a.setInitial q)
  | .addFinal q => a.edited (!a.finals.contains q) (a.addFinal q)
  | .removeFinal q => ⟨.ok (a.finals.contains q), a.removeFinal q⟩
  | .updateTransition q s text => a.updateTransition q s text
  | .determinize => a.replaced (.ok a.determinize)
  | .minimize => a.replaced a.minimize
  | .union other => a.replaced (a.union other)
  | .intersection other => a.replaced (a.intersection other)

/-! ### Both collections -/

namespace InStep

variable {a b : SplitAutomaton} (h : a.InStep)

include h

theorem foldl_insertState (qs : List Label) :
    (qs.foldl SplitAutomaton.insertState a).InStep := by
  induction qs generalizing a with
  | nil => exact h
  | cons q qs ih => exact ih (h.insertState q)

theorem edited {changed : Bool} {result : Except AutomatonError SplitAutomaton}
    (hresult : ∀ b, result = .ok b → b.InStep) : (a.edited changed result).automaton.InStep := by
  cases result with
  | ok b => exact hresult b rfl
  | error cause => exact h

theorem replaced {result : Except AutomatonError SplitAutomaton}
    (hresult : ∀ b, result = .ok b → b.InStep) : (a.replaced result).automaton.InStep := by
  cases result with
  | ok b => exact hresult b rfl
  | error cause => exact h

theorem addState {q : Label} (hok : a.addState q = .ok b) : b.InStep := by
  unfold SplitAutomaton.addState at hok
  split at hok
  · rw [← Except.ok.inj hok]
    exact h.insertState q
  · cases hok

theorem addSymbol {s : Symbol} (hok : a.addSymbol s = .ok b) : b.InStep := by
  unfold SplitAutomaton.addSymbol at hok
  split at hok
  · rw [← Except.ok.inj hok]
    exact h.insertSymbol s
  · cases hok

theorem setInitial {q : Label} (hok : a.setInitial q = .ok b) : b.InStep := by
  unfold SplitAutomaton.setInitial at hok
  split at hok
  · rw [← Except.ok.inj hok]
    exact h
  · cases hok

theorem addFinal {q : Label} (hok : a.addFinal q = .ok b) : b.InStep := by
  unfold SplitAutomaton.addFinal at hok
  split at hok
  · rw [← Except.ok.inj hok]
    exact h
  · cases hok

/-- An edit of a cell inserts the states that are missing, and no rows without them. -/
theorem updateTransition (q : Label) (s : Symbol) (text : String) :
    (a.updateTransition q s text).automaton.InStep := by
  unfold SplitAutomaton.updateTransition
  split
  · exact h
  split
  · exact h
  split
  · exact ((h.foldl_insertState _).modifyCell q s _).withDeterminized false
  · exact h.modifyCell q s _

/-- **A command changes both collections alike**, whether it succeeds or fails. -/
theorem apply (c : Command) : (a.apply c).automaton.InStep := by
  cases c with
  | addState q => exact h.edited fun b hok => h.addState hok
  | deleteState q => exact h.deleteState q
  | addSymbol s => exact h.edited fun b hok => h.addSymbol hok
  | deleteSymbol s => exact h.deleteSymbol s
  | setInitial q => exact h.edited fun b hok => h.setInitial hok
  | addFinal q => exact h.edited fun b hok => h.addFinal hok
  | removeFinal q => exact h.removeFinal q
  | updateTransition q s text => exact h.updateTransition q s text
  | determinize =>
    refine h.replaced fun b hok => ?_
    rw [← Except.ok.inj hok]
    exact inStep_determinize a
  | minimize => exact h.replaced fun b hok => inStep_minimize hok
  | union other => exact h.replaced fun b hok => h.union hok
  | intersection other => exact h.replaced fun b hok => inStep_intersection hok

end InStep

end SplitAutomaton

/-- An outcome in two collections. -/
def Outcome.split (o : Outcome) : SplitOutcome := ⟨o.report, o.automaton.split⟩

namespace Automaton

variable {fa fb : Automaton} {q : Label} {s : Symbol}

/-- The states are compared once more than with one list of rows, which does not matter. -/
theorem split_same (fa fb : Automaton) : fa.split.same fb.split = fa.same fb := by
  have hrows : sameEntries (sameEntries fun c d => c == d) fa.rows fb.rows = true →
      sameMembers fa.states fb.states = true := fun h => (Bool.and_eq_true_iff.1 h).1
  show (sameMembers fa.states fb.states && sameMembers fa.alphabet fb.alphabet &&
    sameEntries (sameEntries fun c d => c == d) fa.rows fb.rows && fa.initial == fb.initial &&
    sameMembers fa.finals fb.finals && fa.determinized == fb.determinized) = fa.same fb
  rw [same]
  cases hentries : sameEntries (sameEntries fun c d => c == d) fa.rows fb.rows with
  | false => simp
  | true => rw [hrows hentries, Bool.true_and]

theorem split_edited (fa : Automaton) (changed : Bool) (result : Except AutomatonError Automaton) :
    fa.split.edited changed (result.map Automaton.split) = (fa.edited changed result).split := by
  cases result <;> rfl

theorem split_replaced (fa : Automaton) (result : Except AutomatonError Automaton) :
    fa.split.replaced (result.map Automaton.split) = (fa.replaced result).split := by
  cases result with
  | ok fb =>
    show SplitOutcome.mk (.ok (!fa.split.same fb.split)) fb.split = _
    rw [split_same]
    rfl
  | error cause => rfl

/-! ### Edits -/

theorem split_addState (fa : Automaton) (q : Label) :
    fa.split.addState q = (fa.addState q).map Automaton.split := by
  unfold SplitAutomaton.addState addState
  split
  · exact congrArg Except.ok (split_insertState fa q).symm
  · rfl

theorem split_setInitial (fa : Automaton) (q : Label) :
    fa.split.setInitial q = (fa.setInitial q).map Automaton.split := by
  show (if fa.hasState q then _ else _) = _
  unfold setInitial
  split <;> rfl

theorem split_addFinal (fa : Automaton) (q : Label) :
    fa.split.addFinal q = (fa.addFinal q).map Automaton.split := by
  show (if fa.hasState q then _ else _) = _
  unfold addFinal
  split
  · rw [insertFinal_eq]
    rfl
  · rfl

theorem split_foldl_insertState (fa : Automaton) (qs : List Label) :
    (qs.foldl Automaton.insertState fa).split = qs.foldl SplitAutomaton.insertState fa.split := by
  induction qs generalizing fa with
  | nil => rfl
  | cons q qs ih => rw [List.foldl_cons, List.foldl_cons, ih, split_insertState]

theorem split_setTargets (fa : Automaton) (q : Label) (s : Symbol) (targets : LabelSet) :
    (fa.setTargets q s targets).split = fa.split.setTargets q s targets := by
  rw [setTargets, split_withDeterminized, split_modifyCell, split_foldl_insertState]
  rfl

theorem split_updateTransition (fa : Automaton) (q : Label) (s : Symbol) (text : String) :
    fa.split.updateTransition q s text = (fa.updateTransition q s text).split := by
  show (if !fa.hasState q then _ else if !fa.hasSymbol s then _ else _) = _
  unfold updateTransition
  split
  · rfl
  split
  · rfl
  cases Cell.parseTargets text.toList with
  | some targets => exact congrArg (SplitOutcome.mk _) (split_setTargets fa q s targets).symm
  | none => exact congrArg (SplitOutcome.mk _) (split_modifyCell fa q s _).symm

namespace WellFormed

variable (h : fa.WellFormed)

include h

theorem split_addSymbol (s : Symbol) :
    fa.split.addSymbol s = (fa.addSymbol s).map Automaton.split := by
  unfold SplitAutomaton.addSymbol Automaton.addSymbol
  split
  · exact congrArg Except.ok (h.split_insertSymbol s).symm
  · rfl

/-- **A command reports and does what the running definition does.** -/
theorem split_apply (hnamed : fa.Named) (c : Command)
    (hoperand : ∀ other, c.operand? = some other → other.WellFormed ∧ other.Named) :
    fa.split.apply c = (fa.apply c).split := by
  cases c with
  | addState q =>
    show fa.split.edited _ (fa.split.addState q) = _
    rw [split_addState, split_edited]
    rfl
  | deleteState q =>
    show SplitOutcome.mk (.ok (fa.hasState q)) (fa.split.deleteState q) = _
    rw [Automaton.apply]
    split
    · rename_i hq
      rw [hq, ← h.split_deleteState]
      rfl
    · rename_i hq
      rw [SplitAutomaton.deleteState_of_notMem (mt fa.hasState_iff.2 hq), Bool.eq_false_iff.2 hq]
      rfl
  | addSymbol s =>
    show fa.split.edited _ (fa.split.addSymbol s) = _
    rw [h.split_addSymbol, split_edited]
    rfl
  | deleteSymbol s =>
    show SplitOutcome.mk (.ok (fa.hasSymbol s)) (fa.split.deleteSymbol s) = _
    rw [Automaton.apply]
    split
    · rename_i hs
      rw [hs, ← h.split_deleteSymbol]
      rfl
    · rename_i hs
      rw [SplitAutomaton.deleteSymbol_of_notMem (mt fa.hasSymbol_iff.2 hs), Bool.eq_false_iff.2 hs]
      rfl
  | setInitial q =>
    show fa.split.edited _ (fa.split.setInitial q) = _
    rw [split_setInitial, split_edited]
    rfl
  | addFinal q =>
    show fa.split.edited _ (fa.split.addFinal q) = _
    rw [split_addFinal, split_edited]
    rfl
  | removeFinal q => exact congrArg (SplitOutcome.mk _) (h.split_removeFinal q).symm
  | updateTransition q s text => exact split_updateTransition fa q s text
  | determinize =>
    show fa.split.replaced (.ok fa.split.determinize) = _
    rw [← h.split_determinize]
    exact split_replaced fa (.ok fa.determinize)
  | minimize =>
    show fa.split.replaced fa.split.minimize = _
    rw [h.split_minimize]
    exact split_replaced fa fa.minimize
  | union other =>
    obtain ⟨hother, -⟩ := hoperand other rfl
    show fa.split.replaced (fa.split.union other) = _
    rw [h.split_union hother]
    exact split_replaced fa (fa.union other)
  | intersection other =>
    obtain ⟨hother, hnamed'⟩ := hoperand other rfl
    show fa.split.replaced (fa.split.intersection other) = _
    rw [h.split_intersection hother hnamed hnamed']
    exact split_replaced fa (fa.intersection other)

end WellFormed

end Automaton

end FiniteState
