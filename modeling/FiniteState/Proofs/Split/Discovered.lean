import FiniteState.Proofs.Automaton.Constructions
import FiniteState.Proofs.Split.Construct

/-!
# What the loops write

Determinization and the compilation of a regular expression discover the states of a machine one
after the other, and write them while they do.  The loops go through the states of the machine, so
that they write its automaton, which is the table that the running definitions fill in one go.

## Main results

* `Writing.split_written` — a loop that is over has written the automaton of the machine.
* `Automaton.WellFormed.split_determinize`, `Regex.PositionTable.split_automaton` — **the
  constructions in two collections are the running ones**.
-/

namespace FiniteState

namespace SplitAutomaton

theorem withDeterminized_eq_self {a : SplitAutomaton} {flag : Bool} (h : a.determinized = flag) :
    a.withDeterminized flag = a := by
  subst h
  rfl

theorem withDeterminized_withDeterminized (a : SplitAutomaton) (flag flag' : Bool) :
    (a.withDeterminized flag).withDeterminized flag' = a.withDeterminized flag' := rfl

/-- The flag does not matter to names. -/
theorem rename_withDeterminized (a : SplitAutomaton) (flag : Bool) :
    (a.withDeterminized flag).rename = a.rename.withDeterminized flag := rfl

end SplitAutomaton

/-- A loop that is over has written the automaton of the machine. -/
theorem Writing.split_written {κ ι : Type} [DecidableEq ι] [DecidableEq κ] {key : κ → ι}
    {name : List Label → κ → Label} {m : Machine κ} (hkey : Function.Injective key)
    (hname : ∀ keys : List κ, keys.Nodup → ((Construction.named name keys).map Prod.snd).Nodup)
    (h : m.Lawful) {describe : κ → Label}
    (hgoes : Construction.GoesThrough key
      (fun turns => (Construction.turn key name m.successors)^[turns]
        (Construction.start key name m.initial.toList)) (Label.distinct describe m.states))
    {turns : ℕ} (hturns : m.states.length ≤ turns) :
    SplitAutomaton.empty.performAll (written key name m turns) =
      (m.toAutomaton describe).split.withDeterminized false := by
  have hsplit := Automaton.wellFormed_empty.split_performAll rfl (written key name m turns)
  rw [performAll_written hkey hname h.alphabet_nodup h hgoes hturns] at hsplit
  exact hsplit.symm

open SplitAutomaton

namespace Automaton.WellFormed

variable {fa : Automaton} (h : fa.WellFormed)

include h

theorem length_states_powerset_le : fa.powerset.states.length ≤ 1 <<< fa.states.length := by
  rw [← LabelSet.length_subsets]
  exact Machine.length_states_discovered_le (fun _ => h.initial_powerset_mem)
    fun _ _ _ _ _ => h.step_powerset_mem

/-- The loop of determinization writes the automaton of the powerset machine. -/
theorem split_powerset : (SplitAutomaton.empty.withDeterminized true).performAll
      (Writing.written LabelSet.toList (fun taken S => Label.primed taken S.describe)
        fa.powerset (1 <<< fa.states.length)) =
    (fa.powerset.toAutomaton LabelSet.describe).split := by
  have hname (keys : List LabelSet) (_ : keys.Nodup) : ((Construction.named
      (fun taken S => Label.primed taken (LabelSet.describe S)) keys).map Prod.snd).Nodup := by
    rw [Construction.named_primed]
    exact Label.nodup_map_snd_distinct _ keys
  rw [performAll_withDeterminized, Writing.split_written LabelSet.toList_injective hname
    h.lawful_powerset h.goesThrough_setLoop h.length_states_powerset_le]
  rfl

theorem split_determinize : fa.determinize.split = fa.split.determinize := by
  have hbuilt := h.lawful_powerset.wellFormed LabelSet.describe
  have hwritten := h.split_powerset
  unfold Automaton.determinize SplitAutomaton.determinize
  rw [h.table_split]
  dsimp only
  rw [show fa.split.states = fa.states from rfl, hwritten]
  split
  · rfl
  · rw [← hbuilt.split_removeUseless, ← hbuilt.removeUseless.split_rename]
    exact (withDeterminized_eq_self rfl).symm

end Automaton.WellFormed

/-- The loop of compilation writes the automaton over sets of positions. -/
theorem Regex.PositionTable.split_automaton {e : Expr Symbol} (h : e.OverTerminals) :
    (ofExpr e).automaton.split = ofPositions (ofExpr e) := by
  have hmachine := lawful_machine h
  have hlength : (ofExpr e).machine.states.length ≤ 1 <<< (ofExpr e).size := by
    rw [← NatSet.length_subsets]
    exact Machine.length_states_discovered_le (fun _ => initial_machine_mem)
      fun _ _ _ _ _ => step_machine_mem
  have hname (keys : List NatSet) (hkeys : keys.Nodup) :
      ((Construction.named (fun _ S => describe S) keys).map Prod.snd).Nodup := by
    rw [Construction.named_description, List.map_map]
    exact hkeys.map describe_injective
  have hgoes := goesThrough_positionLoop e
  rw [← Label.distinct_of_nodup (hmachine.states_nodup.map describe_injective)] at hgoes
  rw [ofPositions, Writing.split_written NatSet.toList_injective hname hmachine hgoes hlength,
    rename_withDeterminized, withDeterminized_withDeterminized,
    ← (hmachine.wellFormed describe).split_rename]
  exact (withDeterminized_eq_self rfl).symm

end FiniteState
