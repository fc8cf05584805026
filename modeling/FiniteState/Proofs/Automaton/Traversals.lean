import FiniteState.Proofs.Automaton.Language
import FiniteState.Proofs.Worklist

/-!
# The traversals of an automaton

The closure of a state, the states reached from a state, and the states that reach an
accepting state are each the work of one loop: the first follows the silent transitions with a
stack, the second all transitions with a queue, the third goes against the transitions, with a
queue and a table of the sources of the transitions to each state.  All three end on every
automaton, and find exactly what can be reached.

## Main definitions

* `Automaton.silentSuccessors`, `Automaton.arrivals` — what the first and the third follow.
* `Automaton.Sweeps` — a loop ends, and has visited the members of a set.

## Main results

* `WellFormed.sweeps_closure`, `WellFormed.sweeps_reachable`, `WellFormed.sweeps_coreachable`
  — **the loops end** with the sets that the explorations find.
* `WellFormed.mem_coreachable_iff` — going backward is **dual** to going forward.
* `Obtainable.traversals` — all of this together.
-/

namespace FiniteState.Automaton

open Relation

variable {fa : Automaton} {p q r : Label} {s : Symbol}

/-! ### What the loops follow -/

/-- The states that one silent transition leads to. -/
def silentSuccessors (fa : Automaton) (q : Label) : List Label :=
  (fa.targets q Symbol.epsilon).toList

/-- The sources of the transitions to a state, a source once for each of its symbols. -/
def arrivals (fa : Automaton) (q : Label) : List Label :=
  fa.cells.filterMap fun (p, _, c) => if c.targets.contains q then some p else none

/-- **A loop ends**, and has visited the members of the set, each of them once. -/
def Sweeps (d : Discipline) (next : Label → List Label) (places : List Label) (S : LabelSet) :
    Prop :=
  ∃ visited, Worklist.Ends d next ⟨[], places⟩ visited ∧ visited.Nodup ∧
    ∀ q, q ∈ visited ↔ q ∈ S

/-- A loop that does not leave the states sweeps the set of those that can be reached. -/
theorem sweeps_of_reached (fa : Automaton) {d : Discipline} {next : Label → List Label}
    {places : List Label} {S : LabelSet} (hplaces : places ⊆ fa.states)
    (hclosed : ∀ p ∈ fa.states, next p ⊆ fa.states)
    (hS : ∀ r, r ∈ S ↔ ∃ q ∈ places, ReflTransGen (Leads next) q r) :
    Sweeps d next places S := by
  obtain ⟨visited, hends, hnodup, hvisited⟩ := Worklist.exists_ends d hplaces hclosed
  exact ⟨visited, hends, hnodup, fun r => (hvisited r).trans (hS r).symm⟩

theorem leads_silentSuccessors : Leads fa.silentSuccessors =
    fun p p' => p' ∈ fa.targets p Symbol.epsilon := rfl

namespace WellFormed

variable (h : fa.WellFormed)

include h

theorem leads_successors : Leads fa.successors = fun p p' => ∃ s, p' ∈ fa.targets p s := by
  funext p p'
  exact propext h.mem_successors

theorem leads_arrivals :
    Leads fa.arrivals = Function.swap fun p p' => ∃ s, p' ∈ fa.targets p s := by
  funext q p
  refine propext ?_
  simp only [Leads, arrivals, List.mem_filterMap, Option.ite_none_right_eq_some,
    Option.some.injEq, LabelSet.contains_iff, Prod.exists, Function.swap]
  constructor
  · rintro ⟨p, s, c, hc, hq, rfl⟩
    exact ⟨s, by rwa [h.targets_of_mem_cells hc]⟩
  · rintro ⟨s, hq⟩
    obtain ⟨c, hc, htargets⟩ := exists_cell_of_mem_targets hq
    exact ⟨p, s, c, hc, by rwa [← htargets], rfl⟩

/-! ### The loops -/

theorem mem_closure_iff (hq : q ∈ fa.states) : r ∈ fa.closure q ↔
    ReflTransGen (fun p p' => p' ∈ fa.targets p Symbol.epsilon) q r :=
  (h.mem_closure hq).trans Path.nil_iff

theorem mem_reachable_iff (hq : q ∈ fa.states) : r ∈ fa.reachable q ↔
    ReflTransGen (fun p p' => ∃ s, p' ∈ fa.targets p s) q r :=
  (h.mem_reachable hq).trans exists_path_iff

/-- **Going backward is dual to going forward.** -/
theorem mem_coreachable_iff (hq : q ∈ fa.states) :
    q ∈ fa.coreachable ↔ ∃ f ∈ fa.reachable q, f ∈ fa.finals := by
  simp only [h.mem_coreachable, Useful, AcceptsFrom, h.mem_reachable hq]
  constructor
  · rintro ⟨w, f, hf, hpath⟩
    exact ⟨f, ⟨w, hpath⟩, hf⟩
  · rintro ⟨f, ⟨w, hpath⟩, hf⟩
    exact ⟨w, f, hf, hpath⟩

/-- The loop with a stack ends with the closure of a state. -/
theorem sweeps_closure (hq : q ∈ fa.states) :
    Sweeps .stack fa.silentSuccessors [q] (fa.closure q) := by
  refine sweeps_of_reached fa (by simpa using hq) (fun p _ r hr => h.target_mem hr) ?_
  intro r
  simp [h.mem_closure_iff hq, leads_silentSuccessors]

/-- The loop with a queue ends with the states reached. -/
theorem sweeps_reachable (hq : q ∈ fa.states) :
    Sweeps .queue fa.successors [q] (fa.reachable q) := by
  have hclosed : ∀ p ∈ fa.states, fa.successors p ⊆ fa.states := by
    intro p _ r hr
    obtain ⟨s, hr⟩ := h.mem_successors.1 hr
    exact h.target_mem hr
  refine sweeps_of_reached fa (by simpa using hq) hclosed fun r => ?_
  simp [h.mem_reachable_iff hq, h.leads_successors]

/-- The loop against the transitions ends with the states that reach an accepting one. -/
theorem sweeps_coreachable :
    Sweeps .queue fa.arrivals (fa.finals.filter fa.hasState) fa.coreachable := by
  have hmem : ∀ f, f ∈ fa.finals.filter fa.hasState ↔ f ∈ fa.finals := fun f =>
    List.mem_filter.trans (and_iff_left_of_imp fun hf => fa.hasState_iff.2 (h.final_mem hf))
  have hclosed : ∀ p ∈ fa.states, fa.arrivals p ⊆ fa.states := by
    intro q _ p hp
    have hleads : Leads fa.arrivals q p := hp
    rw [h.leads_arrivals] at hleads
    obtain ⟨s, hq⟩ := hleads
    exact mem_states_of_mem_targets _ hq
  refine sweeps_of_reached fa (fun f hf => h.final_mem ((hmem f).1 hf)) hclosed fun r => ?_
  rw [h.mem_coreachable, h.leads_arrivals]
  constructor
  · rintro ⟨w, f, hf, hpath⟩
    exact ⟨f, (hmem f).2 hf, reflTransGen_swap.2 (exists_path_iff.1 ⟨w, hpath⟩)⟩
  · rintro ⟨f, hf, hback⟩
    obtain ⟨w, hpath⟩ := exists_path_iff.2 (reflTransGen_swap.1 hback)
    exact ⟨w, f, (hmem f).1 hf, hpath⟩

end WellFormed

/-! ### All traversals -/

/-- **The traversals are exact, dual, and end.**  For every state, its closure holds what zero or
more silent transitions lead to and its reachable states what any transitions lead to; it is
coreachable iff an accepting state is reachable; and the three loops, with a stack, with a queue
and backward, end with these sets. -/
theorem Obtainable.traversals (h : fa.Obtainable) :
    (∀ q ∈ fa.states,
      (∀ r, r ∈ fa.closure q ↔
        ReflTransGen (fun p p' => p' ∈ fa.targets p Symbol.epsilon) q r) ∧
      (∀ r, r ∈ fa.reachable q ↔ ReflTransGen (fun p p' => ∃ s, p' ∈ fa.targets p s) q r) ∧
      (q ∈ fa.coreachable ↔ ∃ f ∈ fa.reachable q, f ∈ fa.finals) ∧
      Sweeps .stack fa.silentSuccessors [q] (fa.closure q) ∧
      Sweeps .queue fa.successors [q] (fa.reachable q)) ∧
    Sweeps .queue fa.arrivals (fa.finals.filter fa.hasState) fa.coreachable := by
  have hfa := h.wellFormed
  exact ⟨fun q hq => ⟨fun r => hfa.mem_closure_iff hq, fun r => hfa.mem_reachable_iff hq,
    hfa.mem_coreachable_iff hq, hfa.sweeps_closure hq, hfa.sweeps_reachable hq⟩,
    hfa.sweeps_coreachable⟩

/-- Two states lead to each other without reading; neither leads back to the initial state. -/
theorem traversals_silent_cycle :
    ∃ fa : Automaton, fa.Obtainable ∧ fa.targets "A" '&' = .singleton "B" ∧
      fa.targets "B" '&' = .singleton "A" ∧
      ReflTransGen (fun p p' => p' ∈ fa.targets p Symbol.epsilon) "A" "B" ∧
      ¬ ReflTransGen (fun p p' => ∃ s, p' ∈ fa.targets p s) "A" "S" ∧
      (∃ f ∈ fa.reachable "A", f ∈ fa.finals) ∧
      Sweeps .stack fa.silentSuccessors ["A"] (fa.closure "A") ∧
      Sweeps .queue fa.successors ["A"] (fa.reachable "A") ∧
      Sweeps .queue fa.arrivals (fa.finals.filter fa.hasState) fa.coreachable := by
  have h := (Obtainable.ofText "S -> aA | aB\nA -> bA\nB -> c").edit (.addSymbol '&') rfl
  have h := h.edit (.updateTransition "A" '&' "B") rfl
  have h := h.edit (.updateTransition "B" '&' "A") rfl
  obtain ⟨hstates, hbackward⟩ := h.traversals
  obtain ⟨hclosure, hreachable, hdual, hstack, hqueue⟩ := hstates "A" (by decide)
  exact ⟨_, h, by decide +kernel, by decide +kernel, (hclosure "B").1 (by decide +kernel),
    mt (hreachable "S").2 (by decide +kernel), hdual.1 (by decide +kernel), hstack, hqueue,
    hbackward⟩

end FiniteState.Automaton
