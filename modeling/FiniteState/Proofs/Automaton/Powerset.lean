import Mathlib.Data.List.Sublists
import FiniteState.Automaton.Subset
import FiniteState.Proofs.Automaton.Machine
import FiniteState.Proofs.Automaton.Renaming

/-!
# Determinization keeps the language

The powerset machine is in the set of states that the fold over the word has come
to, for as long as that set has a member.  There are no more sets of states than
the bound on the exploration, so the machine is lawful and its automaton accepts
the same words; trimming and renaming that automaton change nothing.

## Main results

* `WellFormed.runFrom_powerset` — a word leads the powerset machine to the set of
  states that it leads the automaton to.
* `WellFormed.lawful_powerset` — the powerset machine is lawful.
* `WellFormed.mem_states_powerset` — its states are the sets that words lead to.
* `WellFormed.accepts_determinize` — **determinization keeps the language**.
* `WellFormed.determinize` — and the invariant.
-/

namespace FiniteState

namespace LabelSet

/-- The sets of labels from a list: there are two to the length of the list. -/
def subsets (ls : List Label) : List LabelSet := ls.sublists.map ofList

theorem length_subsets (ls : List Label) : (subsets ls).length = 1 <<< ls.length := by
  rw [subsets, List.length_map, List.length_sublists, Nat.one_shiftLeft]

theorem mem_subsets {ls : List Label} {S : LabelSet} (h : ∀ l ∈ S, l ∈ ls) : S ∈ subsets ls := by
  refine List.mem_map.2 ⟨ls.filter S.contains, List.mem_sublists.2 List.filter_sublist, ?_⟩
  refine ext fun l => ?_
  rw [mem_ofList, List.mem_filter, contains_iff]
  exact ⟨fun hl => hl.2, fun hl => ⟨h l hl, hl⟩⟩

/-- A set that is kept unless it is empty. -/
theorem some_unless_isEmpty {S T : LabelSet} :
    (if S.isEmpty then none else some S) = some T ↔ S = T ∧ T ≠ ∅ := by
  have hkept : _ ↔ S = T ∧ ¬ T.isEmpty = true :=
    some_unless_eq_some (P := fun S : LabelSet => S.isEmpty = true)
  exact hkept.trans (and_congr_right' (not_congr isEmpty_iff))

end LabelSet

namespace Automaton

variable {fa : Automaton} {S T : LabelSet} {s : Symbol} {w : List Symbol}

/-! ### Sets of states -/

theorem step_empty (fa : Automaton) (s : Symbol) : fa.step ∅ s = ∅ := rfl

theorem read_empty (fa : Automaton) (s : Symbol) : fa.read ∅ s = ∅ := by
  rw [read, step_empty, ite_self]

/-- The empty set of states is not left. -/
theorem runFrom_empty (fa : Automaton) (w : List Symbol) : fa.runFrom ∅ w = ∅ := by
  induction w with
  | nil => rfl
  | cons s w ih => rw [runFrom_cons, read_empty, ih]

/-- A word that leads somewhere starts somewhere. -/
theorem start_ne_empty (h : fa.run w ≠ ∅) : fa.start ≠ ∅ := by
  intro hempty
  rw [run, hempty, runFrom_empty] at h
  exact h rfl

theorem setStep_eq_some : fa.setStep S s = some T ↔ fa.step S s = T ∧ T ≠ ∅ :=
  LabelSet.some_unless_isEmpty

theorem mem_alphabet_powerset :
    s ∈ fa.powerset.alphabet ↔ s ∈ fa.alphabet ∧ s ≠ Symbol.epsilon := by
  rw [powerset, Machine.discovered, List.mem_filter, Bool.not_eq_true',
    ← Bool.not_eq_true, Symbol.isEpsilon_iff]

theorem initial_powerset_eq_some : fa.powerset.initial = some S ↔ fa.start = S ∧ S ≠ ∅ :=
  LabelSet.some_unless_isEmpty

/-- Nothing is discovered without an initial state. -/
theorem states_powerset_of_initial_none (h : fa.powerset.initial = none) :
    fa.powerset.states = [] := by
  show explore _ _ fa.powerset.initial.toList = []
  rw [h]
  exact explore_nil _

namespace WellFormed

variable (h : fa.WellFormed)

include h

theorem mem_states_of_mem_start {q : Label} (hq : q ∈ fa.start) : q ∈ fa.states := by
  obtain ⟨p, hp, hpath⟩ := h.mem_start.1 hq
  exact hpath.mem_states h (h.initial_mem hp)

theorem mem_states_of_mem_step {q : Label} (hq : q ∈ fa.step S s) : q ∈ fa.states := by
  obtain ⟨p, -, p', hp', hpath⟩ := h.mem_step.1 hq
  exact hpath.mem_states h (h.target_mem hp')

/-- A symbol outside of the alphabet leads nowhere. -/
theorem step_of_notMem (hs : s ∉ fa.alphabet) : fa.step S s = ∅ := by
  refine LabelSet.ext fun q => ⟨fun hq => ?_, fun hq => absurd hq (LabelSet.notMem_empty q)⟩
  obtain ⟨p, -, p', hp', -⟩ := h.mem_step.1 hq
  exact absurd (h.symbol_mem hp') hs

/-! ### The powerset machine -/

/-- **A word leads the powerset machine to the set of states that it leads the
automaton to**, and nowhere if that set is empty. -/
theorem runFrom_powerset (hS : S ≠ ∅) :
    fa.powerset.runFrom S w = some T ↔ fa.runFrom S w = T ∧ T ≠ ∅ := by
  induction w generalizing S with
  | nil =>
    rw [Machine.runFrom_nil, runFrom_nil, Option.some.injEq]
    exact ⟨fun heq => ⟨heq, heq ▸ hS⟩, fun heq => heq.1⟩
  | cons s w ih =>
    rw [Machine.runFrom_cons_eq_some, mem_alphabet_powerset, runFrom_cons]
    constructor
    · -- a step of the machine leads to a set with a member, from where the induction goes on
      rintro ⟨⟨-, hs⟩, S', hstep, hrun⟩
      obtain ⟨hstep, hS'⟩ := setStep_eq_some.1 hstep
      rw [read, if_neg (fun he => hs (Symbol.isEpsilon_iff.1 he)), hstep]
      exact (ih hS').1 hrun
    · rintro ⟨hrun, hT⟩
      -- the run does not end in the empty set, so it did not pass it
      have hread : fa.read S s ≠ ∅ := by
        intro hempty
        rw [hempty, runFrom_empty] at hrun
        exact hT hrun.symm
      have hs : ¬ Symbol.isEpsilon s = true := fun he => hread (by rw [read, if_pos he])
      rw [read, if_neg hs] at hread hrun
      refine ⟨⟨?_, fun he => hs (Symbol.isEpsilon_iff.2 he)⟩, fa.step S s,
        setStep_eq_some.2 ⟨rfl, hread⟩, (ih hread).2 ⟨hrun, hT⟩⟩
      by_contra hmem
      exact hread (h.step_of_notMem hmem)

theorem initial_powerset_mem (hS : fa.powerset.initial = some S) :
    S ∈ LabelSet.subsets fa.states := by
  obtain ⟨rfl, -⟩ := initial_powerset_eq_some.1 hS
  exact LabelSet.mem_subsets fun q hq => h.mem_states_of_mem_start hq

theorem step_powerset_mem (hT : fa.powerset.step S s = some T) :
    T ∈ LabelSet.subsets fa.states := by
  obtain ⟨rfl, -⟩ := setStep_eq_some.1 hT
  exact LabelSet.mem_subsets fun q hq => h.mem_states_of_mem_step hq

/-- **The powerset machine is lawful**: its bound is the number of sets of states. -/
theorem lawful_powerset : fa.powerset.Lawful := by
  refine Machine.lawful_discovered (U := LabelSet.subsets fa.states) ?_ ?_ ?_ ?_ ?_
  · exact h.alphabet_nodup.filter _
  · intro S hs
    exact absurd rfl (mem_alphabet_powerset.1 hs).2
  · exact fun S hS => h.initial_powerset_mem hS
  · exact fun S _ s _ T hT => h.step_powerset_mem hT
  · rw [LabelSet.length_subsets, states, List.length_map]

/-- **The states of the powerset machine** are the sets with a member that words lead to. -/
theorem mem_states_powerset : S ∈ fa.powerset.states ↔ S ≠ ∅ ∧ ∃ w, fa.run w = S := by
  have hlen : (LabelSet.subsets fa.states).length ≤ 1 <<< fa.rows.length := by
    rw [LabelSet.length_subsets, states, List.length_map]
  have hmem := Machine.mem_states_discovered (k := S) (fun _ => h.initial_powerset_mem)
    (fun _ _ _ _ _ => h.step_powerset_mem) hlen
  refine hmem.trans ?_
  constructor
  · intro hrun
    obtain ⟨i, w, hi, hrun⟩ := hrun
    obtain ⟨rfl, hstart⟩ := initial_powerset_eq_some.1 hi
    obtain ⟨hw, hS⟩ := (h.runFrom_powerset hstart).1 hrun
    exact ⟨hS, w, hw⟩
  · intro hrun
    obtain ⟨hS, w, hw⟩ := hrun
    have hstart : fa.start ≠ ∅ := start_ne_empty (hw ▸ hS)
    exact ⟨fa.start, w, initial_powerset_eq_some.2 ⟨rfl, hstart⟩,
      (h.runFrom_powerset hstart).2 ⟨hw, hS⟩⟩

theorem accepts_powerset : fa.powerset.accepts w = fa.accepts w := by
  rw [Bool.eq_iff_iff, Machine.accepts_iff]
  constructor
  · intro hrun
    obtain ⟨S, T, hS, hT, haccepting⟩ := hrun
    obtain ⟨rfl, hstart⟩ := initial_powerset_eq_some.1 hS
    obtain ⟨rfl, -⟩ := (h.runFrom_powerset hstart).1 hT
    exact haccepting
  · intro haccepts
    -- a set that meets the accepting states has a member, and so has the set at the start
    have hrun : fa.run w ≠ ∅ := by
      intro hempty
      rw [Automaton.accepts, hempty] at haccepts
      cases haccepts
    have hstart := start_ne_empty hrun
    exact ⟨fa.start, fa.run w, initial_powerset_eq_some.2 ⟨rfl, hstart⟩,
      (h.runFrom_powerset hstart).2 ⟨rfl, hrun⟩, haccepts⟩

/-! ### The deterministic automaton -/

theorem determinize : fa.determinize.WellFormed := by
  have hbuilt := h.lawful_powerset.wellFormed LabelSet.describe
  unfold Automaton.determinize
  -- a deterministic automaton is neither trimmed nor renamed
  split
  · exact hbuilt
  · exact hbuilt.removeUseless.rename

/-- **Determinization keeps the language.** -/
theorem accepts_determinize : fa.determinize.accepts w = fa.accepts w := by
  have hlawful := h.lawful_powerset
  have hbuilt := hlawful.wellFormed LabelSet.describe
  unfold Automaton.determinize
  split
  · rw [hlawful.accepts_toAutomaton, h.accepts_powerset]
  · rw [hbuilt.removeUseless.accepts_rename, hbuilt.accepts_removeUseless,
      hlawful.accepts_toAutomaton, h.accepts_powerset]

end WellFormed

theorem determinized_determinize (fa : Automaton) : fa.determinize.determinized = true := by
  unfold determinize
  split <;> rfl

end Automaton

end FiniteState
