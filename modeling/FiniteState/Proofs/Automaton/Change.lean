import FiniteState.Automaton.Command
import FiniteState.Proofs.Automaton.Table

/-!
# What a command can do

A command checks its arguments and then makes one of a dozen changes, or leaves the
automaton as it was.  The changes are listed here once, each with what the command has
checked before.  A property that every change keeps is then kept by every command,
whether it succeeds or fails.

## Main definitions

* `Command.operand?` — the other automaton that a command refers to.
* `Automaton.Change` — the changes that a command can make.

## Main results

* `Automaton.change_apply` — **a command makes one of these changes**.
-/

namespace FiniteState

/-- The other automaton that a command refers to. -/
def Command.operand? : Command → Option Automaton
  | .union other => some other
  | .intersection other => some other
  | _ => none

namespace Automaton

variable {fa fb : Automaton} {q : Label} {s : Symbol}

/-- **The changes that a command can make**, with what it has checked before. -/
inductive Change (fa : Automaton) : Command → Automaton → Prop
  /-- The command fails or has nothing to do. -/
  | unchanged (c : Command) : Change fa c fa
  /-- A label that an editor accepts becomes a state. -/
  | addState {q : Label} : q.isValid = true → Change fa (.addState q) (fa.insertState q)
  /-- A state goes, and with it every reference to it. -/
  | deleteState (q : Label) : Change fa (.deleteState q) (fa.deleteState q)
  /-- A terminal or the marker gets a column. -/
  | addSymbol {s : Symbol} :
    s.isTransitionSymbol = true → Change fa (.addSymbol s) (fa.insertSymbol s)
  /-- A symbol goes with its column. -/
  | deleteSymbol (s : Symbol) : Change fa (.deleteSymbol s) (fa.deleteSymbol s)
  /-- A state becomes the initial one. -/
  | setInitial {q : Label} :
    q ∈ fa.states → Change fa (.setInitial q) { fa with initial := some q }
  /-- A state becomes accepting. -/
  | addFinal {q : Label} : q ∈ fa.states → Change fa (.addFinal q) (fa.insertFinal q)
  /-- A state is accepting no longer. -/
  | removeFinal (q : Label) : Change fa (.removeFinal q) (fa.removeFinal q)
  /-- A cell gets the targets that a text lists. -/
  | setTargets {q : Label} {s : Symbol} {text : String} {targets : LabelSet} :
    Cell.parseTargets text.toList = some targets →
      Change fa (.updateTransition q s text) (fa.setTargets q s targets)
  /-- A cell keeps a text that is no list of states. -/
  | rejectText (q : Label) (s : Symbol) (text : String) :
    Change fa (.updateTransition q s text) (fa.rejectText q s text)
  /-- The automaton is determinized. -/
  | determinize : Change fa .determinize fa.determinize
  /-- The automaton is minimized. -/
  | minimize {fb : Automaton} : fa.minimize = .ok fb → Change fa .minimize fb
  /-- The automaton is united with another one. -/
  | union {other fb : Automaton} : fa.union other = .ok fb → Change fa (.union other) fb
  /-- The automaton is intersected with another one. -/
  | intersection {other fb : Automaton} :
    fa.intersection other = .ok fb → Change fa (.intersection other) fb

/-- A construction is carried out as an edit is. -/
theorem exists_replaced_eq_edited (fa : Automaton) (result : Except AutomatonError Automaton) :
    ∃ changed, fa.replaced result = fa.edited changed result := by
  cases result with
  | ok fb => exact ⟨_, rfl⟩
  | error cause => exact ⟨false, rfl⟩

/-- An edit makes a change, if it does so where it succeeds. -/
theorem Change.edited {c : Command} {changed : Bool} {result : Except AutomatonError Automaton}
    (h : ∀ fb, result = .ok fb → fa.Change c fb) :
    fa.Change c (fa.edited changed result).automaton := by
  cases result with
  | ok fb => exact h fb rfl
  | error cause => exact .unchanged c

/-- So does a construction. -/
theorem Change.replaced {c : Command} {result : Except AutomatonError Automaton}
    (h : ∀ fb, result = .ok fb → fa.Change c fb) :
    fa.Change c (fa.replaced result).automaton := by
  obtain ⟨changed, heq⟩ := exists_replaced_eq_edited fa result
  rw [heq]
  exact Change.edited h

theorem addState_eq_ok (h : fa.addState q = .ok fb) :
    q.isValid = true ∧ fb = fa.insertState q := by
  unfold addState at h
  split at h
  · rename_i hq
    exact ⟨hq, (Except.ok.inj h).symm⟩
  · cases h

theorem addSymbol_eq_ok (h : fa.addSymbol s = .ok fb) :
    s.isTransitionSymbol = true ∧ fb = fa.insertSymbol s := by
  unfold addSymbol at h
  split at h
  · rename_i hs
    exact ⟨hs, (Except.ok.inj h).symm⟩
  · cases h

theorem setInitial_eq_ok (h : fa.setInitial q = .ok fb) :
    q ∈ fa.states ∧ fb = { fa with initial := some q } := by
  unfold setInitial at h
  split at h
  · rename_i hq
    exact ⟨fa.hasState_iff.1 hq, (Except.ok.inj h).symm⟩
  · cases h

theorem addFinal_eq_ok (h : fa.addFinal q = .ok fb) :
    q ∈ fa.states ∧ fb = fa.insertFinal q := by
  unfold addFinal at h
  split at h
  · rename_i hq
    exact ⟨fa.hasState_iff.1 hq, (Except.ok.inj h).symm⟩
  · cases h

theorem change_updateTransition (fa : Automaton) (q : Label) (s : Symbol) (text : String) :
    fa.Change (.updateTransition q s text) (fa.updateTransition q s text).automaton := by
  unfold updateTransition
  split
  · exact .unchanged _
  split
  · exact .unchanged _
  split
  · rename_i targets htargets
    exact .setTargets htargets
  · exact .rejectText q s text

/-- **A command makes one of these changes**, whether it succeeds or fails. -/
theorem change_apply (fa : Automaton) (c : Command) : fa.Change c (fa.apply c).automaton := by
  cases c with
  | addState q =>
    refine Change.edited fun fb hok => ?_
    obtain ⟨hq, rfl⟩ := addState_eq_ok hok
    exact .addState hq
  | deleteState q =>
    rw [apply]
    split
    · exact .deleteState q
    · exact .unchanged _
  | addSymbol s =>
    refine Change.edited fun fb hok => ?_
    obtain ⟨hs, rfl⟩ := addSymbol_eq_ok hok
    exact .addSymbol hs
  | deleteSymbol s =>
    rw [apply]
    split
    · exact .deleteSymbol s
    · exact .unchanged _
  | setInitial q =>
    refine Change.edited fun fb hok => ?_
    obtain ⟨hq, rfl⟩ := setInitial_eq_ok hok
    exact .setInitial hq
  | addFinal q =>
    refine Change.edited fun fb hok => ?_
    obtain ⟨hq, rfl⟩ := addFinal_eq_ok hok
    exact .addFinal hq
  | removeFinal q => exact .removeFinal q
  | updateTransition q s text => exact fa.change_updateTransition q s text
  | determinize =>
    refine Change.replaced fun fb hok => ?_
    rw [← Except.ok.inj hok]
    exact .determinize
  | minimize => exact Change.replaced fun _ hok => .minimize hok
  | union other => exact Change.replaced fun _ hok => .union hok
  | intersection other => exact Change.replaced fun _ hok => .intersection hok

end Automaton

end FiniteState
