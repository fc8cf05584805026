import FiniteState.Automaton.Minimal
import FiniteState.Proofs.Automaton.Path

/-!
# Trimming

A state is *reached* when a path leads to it from the initial state, and *useful*
when a path leads from it to an accepting one.  The explorations of the library
find exactly these states.  A path from the initial state to an accepting one
passes only states of both kinds and uses only symbols in use, so nothing that
trimming removes was on such a path.

## Main definitions

* `Automaton.Reached`, `Automaton.Useful` — the two kinds of states.

## Main results

* `WellFormed.mem_reachableFromInitial`, `WellFormed.mem_coreachable` — the
  explorations find the reached and the useful states.
* `WellFormed.isEmpty_iff` — the check of the language decides whether a word is
  accepted.
* `WellFormed.accepts_removeUseless`, `WellFormed.accepts_removeUnreachable`,
  `WellFormed.accepts_live` — **trimming keeps the language**.
* `WellFormed.reached_live`, `WellFormed.useful_live`, `WellFormed.used_live` — what
  is left of all three is in use.
* `WellFormed.mem_states_live` — the states that are left are those that are reached and
  useful.
-/

namespace FiniteState.Automaton

open Relation

/-- A path leads to the state from the initial one. -/
def Reached (fa : Automaton) (q : Label) : Prop := ∃ p w, fa.initial = some p ∧ fa.Path p w q

/-- A path leads from the state to an accepting one. -/
def Useful (fa : Automaton) (q : Label) : Prop := ∃ w, fa.AcceptsFrom q w

variable {fa : Automaton} {p q r : Label} {s : Symbol} {w : List Symbol}

theorem reached_of_initial (h : fa.initial = some q) : fa.Reached q := ⟨q, [], h, .nil q⟩

theorem useful_of_final (h : q ∈ fa.finals) : fa.Useful q := ⟨[], acceptsFrom_nil_of_mem h⟩

theorem Reached.path (h : fa.Reached q) (hpath : fa.Path q w r) : fa.Reached r := by
  obtain ⟨p, u, hp, hpq⟩ := h
  exact ⟨p, u ++ w, hp, hpq.append hpath⟩

theorem Useful.path (h : fa.Useful r) (hpath : fa.Path q w r) : fa.Useful q := by
  obtain ⟨v, f, hf, hrf⟩ := h
  exact ⟨w ++ v, f, hf, hpath.append hrf⟩

theorem Reached.mem_states (h : fa.Reached q) (hfa : fa.WellFormed) : q ∈ fa.states := by
  obtain ⟨p, w, hp, hpath⟩ := h
  exact hpath.mem_states hfa (hfa.initial_mem hp)

/-- A transition is a path, whether it reads a symbol or not. -/
theorem exists_path_of_mem_targets (h : r ∈ fa.targets q s) : ∃ w, fa.Path q w r := by
  by_cases hs : s = Symbol.epsilon
  · subst hs
    exact ⟨[], .silent h (.nil r)⟩
  · exact ⟨[s], .read hs h (.nil r)⟩

theorem Reached.step (h : fa.Reached q) (hr : r ∈ fa.targets q s) : fa.Reached r := by
  obtain ⟨w, hpath⟩ := exists_path_of_mem_targets hr
  exact h.path hpath

theorem Useful.step (h : fa.Useful r) (hr : r ∈ fa.targets q s) : fa.Useful q := by
  obtain ⟨w, hpath⟩ := exists_path_of_mem_targets hr
  exact h.path hpath

/-- A useful state that does not accept has a transition. -/
theorem Useful.exists_target (h : fa.Useful q) (hq : q ∉ fa.finals) :
    ∃ s r, r ∈ fa.targets q s := by
  obtain ⟨w, f, hf, hpath⟩ := h
  cases hpath with
  | nil => exact absurd hf hq
  | silent hstep _ => exact ⟨_, _, hstep⟩
  | read _ hstep _ => exact ⟨_, _, hstep⟩

/-- The states on a path are those that single transitions lead to. -/
theorem exists_path_iff : (∃ w, fa.Path p w r) ↔
    ReflTransGen (fun q q' => ∃ s, q' ∈ fa.targets q s) p r := by
  constructor
  · rintro ⟨w, h⟩
    induction h with
    | nil => exact .refl
    | silent hstep _ ih => exact .head ⟨_, hstep⟩ ih
    | read _ hstep _ ih => exact .head ⟨_, hstep⟩ ih
  · intro h
    induction h using ReflTransGen.head_induction_on with
    | refl => exact ⟨[], .nil r⟩
    | head hstep _ ih =>
      obtain ⟨s, hstep⟩ := hstep
      obtain ⟨u, hu⟩ := exists_path_of_mem_targets hstep
      obtain ⟨v, hv⟩ := ih
      exact ⟨u ++ v, hu.append hv⟩

/-! ### The explorations -/

namespace WellFormed

variable (h : fa.WellFormed)

include h

theorem mem_successors : r ∈ fa.successors q ↔ ∃ s, r ∈ fa.targets q s := by
  simp only [successors, List.mem_flatMap, LabelSet.mem_toList]
  constructor
  · rintro ⟨s, -, hr⟩
    exact ⟨s, hr⟩
  · rintro ⟨s, hr⟩
    exact ⟨s, h.symbol_mem hr, hr⟩

theorem mem_predecessors : p ∈ fa.predecessors q ↔ ∃ s, q ∈ fa.targets p s := by
  simp only [predecessors, List.mem_map, List.mem_filter, List.any_eq_true,
    LabelSet.contains_iff, Prod.exists]
  constructor
  · intro hmem
    obtain ⟨p, row, ⟨hrow, s, c, hcell, hq⟩, rfl⟩ := hmem
    refine ⟨s, ?_⟩
    rwa [h.targets_of_mem_cells (mem_cells.2 ⟨row, hrow, hcell⟩)]
  · rintro ⟨s, hq⟩
    obtain ⟨c, hc, htargets⟩ := exists_cell_of_mem_targets hq
    obtain ⟨row, hrow, hcell⟩ := mem_cells.1 hc
    rw [htargets] at hq
    exact ⟨p, row, ⟨hrow, s, c, hcell, hq⟩, rfl⟩

theorem mem_reachable (hq : q ∈ fa.states) : r ∈ fa.reachable q ↔ ∃ w, fa.Path q w r := by
  have hplaces : [q] ⊆ fa.states := by simpa using hq
  have hclosed : ∀ p ∈ fa.states, fa.successors p ⊆ fa.states := by
    intro p _ r hr
    obtain ⟨s, hr⟩ := h.mem_successors.1 hr
    exact h.target_mem hr
  have hlen : fa.states.length ≤ fa.rows.length := by simp [states]
  have hleads : Leads fa.successors = fun q q' => ∃ s, q' ∈ fa.targets q s := by
    funext q q'
    exact propext h.mem_successors
  rw [reachable, if_pos (fa.hasState_iff.2 hq), LabelSet.mem_ofList,
    mem_explore_iff hplaces hclosed hlen, exists_path_iff, hleads]
  simp

/-- The forward exploration finds the reached states. -/
theorem mem_reachableFromInitial : q ∈ fa.reachableFromInitial ↔ fa.Reached q := by
  unfold reachableFromInitial Reached
  cases hp : fa.initial with
  | none => simp
  | some p => simp [h.mem_reachable (h.initial_mem hp)]

/-- The backward exploration finds the useful states. -/
theorem mem_coreachable : q ∈ fa.coreachable ↔ fa.Useful q := by
  have hplaces : fa.finals.filter fa.hasState ⊆ fa.states :=
    fun f hf => h.final_mem (List.mem_of_mem_filter hf)
  have hclosed : ∀ p ∈ fa.states, fa.predecessors p ⊆ fa.states := by
    intro p _ r hr
    obtain ⟨s, hr⟩ := h.mem_predecessors.1 hr
    exact mem_states_of_mem_targets _ hr
  have hlen : fa.states.length ≤ fa.rows.length := by simp [states]
  -- the exploration goes along the transitions backwards
  have hleads : Leads fa.predecessors =
      Function.swap fun q q' => ∃ s, q' ∈ fa.targets q s := by
    funext q q'
    exact propext h.mem_predecessors
  rw [coreachable, LabelSet.mem_ofList, mem_explore_iff hplaces hclosed hlen, hleads]
  constructor
  · rintro ⟨f, hf, hreach⟩
    obtain ⟨w, hpath⟩ := exists_path_iff.2 (reflTransGen_swap.1 hreach)
    exact ⟨w, f, List.mem_of_mem_filter hf, hpath⟩
  · rintro ⟨w, f, hf, hpath⟩
    refine ⟨f, List.mem_filter.2 ⟨hf, fa.hasState_iff.2 (h.final_mem hf)⟩, ?_⟩
    exact reflTransGen_swap.2 (exists_path_iff.1 ⟨w, hpath⟩)

/-- **The check of the language decides whether a word is accepted.** -/
theorem isEmpty_iff : fa.isEmpty = true ↔ ∀ w, fa.accepts w = false := by
  simp only [isEmpty, List.all_eq_true, LabelSet.mem_toList, h.mem_reachableFromInitial,
    Bool.not_eq_true', ← Bool.not_eq_true, isFinal_iff, h.accepts_iff]
  constructor
  · rintro hnone w ⟨p, hp, f, hf, hpath⟩
    exact hnone f ⟨p, w, hp, hpath⟩ hf
  · rintro hnone f ⟨p, w, hp, hpath⟩ hf
    exact hnone w ⟨p, hp, f, hf, hpath⟩

/-! ### Transitions in use -/

theorem hasOutgoing_iff : fa.hasOutgoing q = true ↔ ∃ s r, r ∈ fa.targets q s := by
  unfold hasOutgoing
  cases hrow : fa.row? q with
  | none =>
    refine iff_of_false (by simp) ?_
    rintro ⟨s, r, hr⟩
    rw [fa.targets_of_row_none hrow] at hr
    exact LabelSet.notMem_empty r hr
  | some row =>
    have hmem : (q, row) ∈ fa.rows := List.mem_of_lookup_eq_some hrow
    simp only [List.any_eq_true, Prod.exists, Bool.not_eq_true', ← Bool.not_eq_true,
      Cell.isEmpty_iff]
    constructor
    · rintro ⟨s, c, hcell, hne⟩
      obtain ⟨r, hr⟩ := LabelSet.exists_mem_of_ne_empty hne
      refine ⟨s, r, ?_⟩
      rwa [h.targets_of_mem_cells (mem_cells.2 ⟨row, hmem, hcell⟩)]
    · rintro ⟨s, r, hr⟩
      obtain ⟨c, hc, htargets⟩ := exists_cell_of_mem_targets hr
      obtain ⟨row', hrow', hcell⟩ := mem_cells.1 hc
      -- a state has one row only
      obtain rfl := Option.some.inj (hrow.symm.trans (h.row?_of_mem_rows hrow'))
      rw [htargets] at hr
      exact ⟨s, c, hcell, LabelSet.ne_empty_of_mem hr⟩

theorem usesSymbol_iff : fa.usesSymbol s = true ↔ ∃ q r, r ∈ fa.targets q s := by
  simp only [usesSymbol, List.any_eq_true, Prod.exists]
  constructor
  · rintro ⟨q, row, hrow, huses⟩
    cases hc : row.lookup s with
    | none => simp [hc] at huses
    | some c =>
      rw [hc] at huses
      have hcell := mem_cells.2 ⟨row, hrow, List.mem_of_lookup_eq_some hc⟩
      have hne : c.targets ≠ ∅ := by
        intro hempty
        simp [Cell.isEmpty_iff.2 hempty] at huses
      obtain ⟨r, hr⟩ := LabelSet.exists_mem_of_ne_empty hne
      refine ⟨q, r, ?_⟩
      rwa [h.targets_of_mem_cells hcell]
  · rintro ⟨q, r, hr⟩
    obtain ⟨c, hc, htargets⟩ := exists_cell_of_mem_targets hr
    obtain ⟨row, hrow, hcell⟩ := mem_cells.1 hc
    rw [htargets] at hr
    have hne : ¬ c.isEmpty = true := by
      rw [Cell.isEmpty_iff]
      exact LabelSet.ne_empty_of_mem hr
    refine ⟨q, row, hrow, ?_⟩
    rw [h.lookup_of_mem_row hrow hcell]
    simpa using hne

theorem mem_targets_pruneUnusedSymbols :
    r ∈ fa.pruneUnusedSymbols.targets q s ↔ r ∈ fa.targets q s := by
  rw [pruneUnusedSymbols, mem_targets_keepSymbols, h.usesSymbol_iff]
  exact ⟨fun hr => hr.2, fun hr => ⟨⟨q, r, hr⟩, hr⟩⟩

theorem pruneUnusedSymbols : fa.pruneUnusedSymbols.WellFormed := h.keepSymbols _

theorem path_pruneUnusedSymbols : fa.pruneUnusedSymbols.Path p w r ↔ fa.Path p w r :=
  ⟨fun hpath => hpath.mono h.mem_targets_pruneUnusedSymbols.1,
    fun hpath => hpath.mono h.mem_targets_pruneUnusedSymbols.2⟩

end WellFormed

/-! ### Restriction to the states on a path -/

/-- A path stays among states that no transition leaves. -/
theorem Path.keepStates_of_forward {k : Label → Bool}
    (hk : ∀ {q s r}, r ∈ fa.targets q s → k q = true → k r = true)
    (h : fa.Path p w r) (hp : k p = true) : (fa.keepStates k).Path p w r := by
  induction h with
  | nil q => exact .nil q
  | silent hstep _ ih =>
    exact .silent ((mem_targets_keepStates fa).2 ⟨hp, hk hstep hp, hstep⟩) (ih (hk hstep hp))
  | read hs hstep _ ih =>
    exact .read hs ((mem_targets_keepStates fa).2 ⟨hp, hk hstep hp, hstep⟩) (ih (hk hstep hp))

/-- A path to a state comes from states that no transition enters from outside. -/
theorem Path.keepStates_of_backward {k : Label → Bool}
    (hk : ∀ {q s r}, r ∈ fa.targets q s → k r = true → k q = true)
    (h : fa.Path p w r) (hr : k r = true) : (fa.keepStates k).Path p w r ∧ k p = true := by
  induction h with
  | nil q => exact ⟨.nil q, hr⟩
  | silent hstep _ ih =>
    obtain ⟨htail, hq⟩ := ih hr
    exact ⟨.silent ((mem_targets_keepStates fa).2 ⟨hk hstep hq, hq, hstep⟩) htail, hk hstep hq⟩
  | read hs hstep _ ih =>
    obtain ⟨htail, hq⟩ := ih hr
    exact ⟨.read hs ((mem_targets_keepStates fa).2 ⟨hk hstep hq, hq, hstep⟩) htail, hk hstep hq⟩

theorem Path.of_keepStates {k : Label → Bool} (h : (fa.keepStates k).Path p w r) :
    fa.Path p w r :=
  h.mono fun hr => ((mem_targets_keepStates fa).1 hr).2.2

namespace WellFormed

/-! ### Unreached states -/

section Unreachable

variable (h : fa.WellFormed)

include h

theorem removeUnreachable : fa.removeUnreachable.WellFormed := h.keepStates _

theorem contains_reachableFromInitial :
    fa.reachableFromInitial.contains q = true ↔ fa.Reached q := by
  rw [LabelSet.contains_iff, h.mem_reachableFromInitial]

theorem path_removeUnreachable (hp : fa.Reached p) :
    fa.removeUnreachable.Path p w r ↔ fa.Path p w r := by
  constructor
  · exact Path.of_keepStates
  · intro hpath
    refine hpath.keepStates_of_forward (fun hr hq => ?_) (h.contains_reachableFromInitial.2 hp)
    rw [h.contains_reachableFromInitial] at hq ⊢
    exact hq.step hr

theorem initial_removeUnreachable : fa.removeUnreachable.initial = fa.initial := by
  rw [Automaton.removeUnreachable, initial_keepStates]
  cases hp : fa.initial with
  | none => rfl
  | some p =>
    rw [Option.filter_some, if_pos (h.contains_reachableFromInitial.2 (reached_of_initial hp))]

theorem mem_finals_removeUnreachable :
    q ∈ fa.removeUnreachable.finals ↔ q ∈ fa.finals ∧ fa.Reached q := by
  rw [Automaton.removeUnreachable, finals_keepStates, List.mem_filter,
    h.contains_reachableFromInitial]

theorem mem_states_removeUnreachable :
    q ∈ fa.removeUnreachable.states ↔ q ∈ fa.states ∧ fa.Reached q := by
  rw [Automaton.removeUnreachable, states_keepStates, List.mem_filter,
    h.contains_reachableFromInitial]

theorem acceptsFrom_removeUnreachable (hp : fa.Reached p) :
    fa.removeUnreachable.AcceptsFrom p w ↔ fa.AcceptsFrom p w := by
  constructor
  · rintro ⟨f, hf, hpath⟩
    exact ⟨f, (h.mem_finals_removeUnreachable.1 hf).1, (h.path_removeUnreachable hp).1 hpath⟩
  · rintro ⟨f, hf, hpath⟩
    exact ⟨f, h.mem_finals_removeUnreachable.2 ⟨hf, hp.path hpath⟩,
      (h.path_removeUnreachable hp).2 hpath⟩

/-- A reached state that reaches an accepting one does so along reached states. -/
theorem useful_removeUnreachable_iff (hq : fa.Reached q) :
    fa.removeUnreachable.Useful q ↔ fa.Useful q :=
  exists_congr fun _ => h.acceptsFrom_removeUnreachable hq

theorem accepts_removeUnreachable : fa.removeUnreachable.accepts w = fa.accepts w := by
  rw [Bool.eq_iff_iff, h.removeUnreachable.accepts_iff, h.accepts_iff,
    h.initial_removeUnreachable]
  refine exists_congr fun p => and_congr_right fun hp => ?_
  exact h.acceptsFrom_removeUnreachable (reached_of_initial hp)

end Unreachable

/-! ### Useless states -/

section Useless

variable (h : fa.WellFormed)

include h

theorem removeUseless : fa.removeUseless.WellFormed := (h.keepStates _).pruneUnusedSymbols

theorem contains_coreachable : fa.coreachable.contains q = true ↔ fa.Useful q := by
  rw [LabelSet.contains_iff, h.mem_coreachable]

theorem mem_targets_removeUseless :
    r ∈ fa.removeUseless.targets q s ↔ fa.Useful r ∧ r ∈ fa.targets q s := by
  rw [Automaton.removeUseless, (h.keepStates _).mem_targets_pruneUnusedSymbols,
    mem_targets_keepStates, h.contains_coreachable, h.contains_coreachable]
  exact ⟨fun hr => hr.2, fun hr => ⟨hr.1.step hr.2, hr⟩⟩

theorem mem_states_removeUseless :
    q ∈ fa.removeUseless.states ↔ q ∈ fa.states ∧ fa.Useful q := by
  rw [Automaton.removeUseless, Automaton.pruneUnusedSymbols, states_keepSymbols,
    states_keepStates, List.mem_filter, h.contains_coreachable]

theorem mem_finals_removeUseless : q ∈ fa.removeUseless.finals ↔ q ∈ fa.finals := by
  rw [Automaton.removeUseless, Automaton.pruneUnusedSymbols, finals_keepSymbols,
    finals_keepStates, List.mem_filter, h.contains_coreachable]
  exact ⟨fun hq => hq.1, fun hq => ⟨hq, useful_of_final hq⟩⟩

theorem initial_removeUseless_eq_some :
    fa.removeUseless.initial = some p ↔ fa.initial = some p ∧ fa.Useful p := by
  rw [Automaton.removeUseless, Automaton.pruneUnusedSymbols, initial_keepSymbols,
    initial_keepStates, Option.filter_eq_some_iff, h.contains_coreachable]

/-- A path to a useful state is left as it is. -/
theorem path_removeUseless (hr : fa.Useful r) :
    fa.removeUseless.Path p w r ↔ fa.Path p w r := by
  rw [Automaton.removeUseless, (h.keepStates _).path_pruneUnusedSymbols]
  constructor
  · exact Path.of_keepStates
  · intro hpath
    refine (hpath.keepStates_of_backward (fun hq hk => ?_) (h.contains_coreachable.2 hr)).1
    rw [h.contains_coreachable] at hk ⊢
    exact hk.step hq

theorem acceptsFrom_removeUseless : fa.removeUseless.AcceptsFrom p w ↔ fa.AcceptsFrom p w := by
  constructor
  · rintro ⟨f, hf, hpath⟩
    rw [h.mem_finals_removeUseless] at hf
    exact ⟨f, hf, (h.path_removeUseless (useful_of_final hf)).1 hpath⟩
  · rintro ⟨f, hf, hpath⟩
    exact ⟨f, h.mem_finals_removeUseless.2 hf, (h.path_removeUseless (useful_of_final hf)).2 hpath⟩

theorem useful_removeUseless_iff : fa.removeUseless.Useful q ↔ fa.Useful q :=
  exists_congr fun _ => h.acceptsFrom_removeUseless

theorem accepts_removeUseless : fa.removeUseless.accepts w = fa.accepts w := by
  rw [Bool.eq_iff_iff, h.removeUseless.accepts_iff, h.accepts_iff]
  simp only [h.acceptsFrom_removeUseless, h.initial_removeUseless_eq_some]
  exact exists_congr fun p => ⟨fun hp => ⟨hp.1.1, hp.2⟩, fun hp => ⟨⟨hp.1, w, hp.2⟩, hp.2⟩⟩

/-- Only states that reach an accepting one are left. -/
theorem useful_removeUseless (hq : q ∈ fa.removeUseless.states) : fa.removeUseless.Useful q :=
  h.useful_removeUseless_iff.2 (h.mem_states_removeUseless.1 hq).2

/-- Removing the useless states leaves the others reached: the states on the way to
a useful state are useful. -/
theorem reached_removeUseless_iff (huseful : fa.Useful q) :
    fa.removeUseless.Reached q ↔ fa.Reached q := by
  constructor
  · rintro ⟨p, w, hp, hpath⟩
    exact ⟨p, w, (h.initial_removeUseless_eq_some.1 hp).1, (h.path_removeUseless huseful).1 hpath⟩
  · rintro ⟨p, w, hp, hpath⟩
    exact ⟨p, w, h.initial_removeUseless_eq_some.2 ⟨hp, huseful.path hpath⟩,
      (h.path_removeUseless huseful).2 hpath⟩

/-- Only symbols that lead somewhere are left. -/
theorem used_removeUseless (hs : s ∈ fa.removeUseless.alphabet) :
    ∃ q r, r ∈ fa.removeUseless.targets q s := by
  -- symbols are pruned after the states, so they are in use between useful states
  have hkept := h.keepStates fa.coreachable.contains
  obtain ⟨q, r, hr⟩ := hkept.usesSymbol_iff.1 (List.mem_filter.1 hs).2
  exact ⟨q, r, hkept.mem_targets_pruneUnusedSymbols.2 hr⟩

end Useless

/-! ### All three -/

section Live

variable (h : fa.WellFormed)

include h

theorem live : fa.live.WellFormed := h.removeUnreachable.removeUseless

theorem mem_targets_of_live (hr : r ∈ fa.live.targets q s) : r ∈ fa.targets q s := by
  have hr := (h.removeUnreachable.mem_targets_removeUseless.1 hr).2
  exact ((mem_targets_keepStates fa).1 hr).2.2

/-- **Trimming keeps the language.** -/
theorem accepts_live : fa.live.accepts w = fa.accepts w := by
  rw [Automaton.live, h.removeUnreachable.accepts_removeUseless, h.accepts_removeUnreachable]

theorem useful_live (hq : q ∈ fa.live.states) : fa.live.Useful q :=
  h.removeUnreachable.useful_removeUseless hq

theorem used_live (hs : s ∈ fa.live.alphabet) : ∃ q r, r ∈ fa.live.targets q s :=
  h.removeUnreachable.used_removeUseless hs

/-- Every state that is left is reached. -/
theorem reached_live (hq : q ∈ fa.live.states) : fa.live.Reached q := by
  have hmid := h.removeUnreachable
  obtain ⟨hq, huseful⟩ := hmid.mem_states_removeUseless.1 hq
  obtain ⟨-, p, w, hp, hpath⟩ := h.mem_states_removeUnreachable.1 hq
  -- the path leads along reached states, and on to an accepting state
  refine (hmid.reached_removeUseless_iff huseful).2 ⟨p, w, ?_, ?_⟩
  · rw [h.initial_removeUnreachable, hp]
  · exact (h.path_removeUnreachable (reached_of_initial hp)).2 hpath

/-- The states that are left are those that are reached and useful. -/
theorem mem_states_live : q ∈ fa.live.states ↔ fa.Reached q ∧ fa.Useful q := by
  have hstate : q ∈ fa.states ∧ fa.Reached q ↔ fa.Reached q :=
    and_iff_right_of_imp fun hq => hq.mem_states h
  rw [Automaton.live, h.removeUnreachable.mem_states_removeUseless,
    h.mem_states_removeUnreachable, hstate]
  exact and_congr_right h.useful_removeUnreachable_iff

/-- The transitions between them are left. -/
theorem mem_targets_live (hq : q ∈ fa.live.states) (hr : r ∈ fa.live.states) :
    r ∈ fa.live.targets q s ↔ r ∈ fa.targets q s := by
  obtain ⟨hqreached, -⟩ := h.mem_states_live.1 hq
  obtain ⟨hrreached, -⟩ := h.mem_states_live.1 hr
  obtain ⟨-, huseful⟩ := h.removeUnreachable.mem_states_removeUseless.1 hr
  rw [Automaton.live, h.removeUnreachable.mem_targets_removeUseless, and_iff_right huseful,
    Automaton.removeUnreachable, mem_targets_keepStates, h.contains_reachableFromInitial,
    h.contains_reachableFromInitial, and_iff_right hqreached, and_iff_right hrreached]

/-- The initial state is left when some state is. -/
theorem initial_live_eq_some :
    fa.live.initial = some p ↔ fa.initial = some p ∧ p ∈ fa.live.states := by
  constructor
  · intro hp
    have hmem := h.live.initial_mem hp
    obtain ⟨hp, -⟩ := h.removeUnreachable.initial_removeUseless_eq_some.1 hp
    exact ⟨h.initial_removeUnreachable.symm.trans hp, hmem⟩
  · intro hp
    obtain ⟨hp, hmem⟩ := hp
    obtain ⟨-, huseful⟩ := h.removeUnreachable.mem_states_removeUseless.1 hmem
    exact h.removeUnreachable.initial_removeUseless_eq_some.2
      ⟨h.initial_removeUnreachable.trans hp, huseful⟩

theorem mem_finals_live : q ∈ fa.live.finals ↔ q ∈ fa.finals ∧ fa.Reached q := by
  rw [Automaton.live, h.removeUnreachable.mem_finals_removeUseless, h.mem_finals_removeUnreachable]

end Live

end WellFormed

/-- Trimming brings no symbols in. -/
theorem mem_alphabet_of_live (hs : s ∈ fa.live.alphabet) : s ∈ fa.alphabet :=
  List.mem_of_mem_filter hs

end FiniteState.Automaton
