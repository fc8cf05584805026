import FiniteState.Automaton.Machine
import FiniteState.Proofs.Automaton.Trim
import FiniteState.Proofs.Label.Fresh

/-!
# The automaton of a machine

A machine runs over states of any type, an automaton over labels.  When every
state has a label of its own, the two make the same moves: a word leads from one
state to another exactly when it is read on a path between their labels.  Labels
are told apart by primes, so this holds whatever the descriptions of the states
are, also when two states are described alike.

## Main definitions

* `Machine.Lawful` — the states are listed once each and are not left.
* `Machine.label` — the label of a state in the automaton.

## Main results

* `Machine.mem_states_discovered` — the states that an exploration discovers are
  those that words lead to.
* `Machine.lawful_discovered` — a discovered machine is lawful, if the bound on its
  states is one.
* `Machine.Lawful.wellFormed`, `Machine.Lawful.path_toAutomaton`,
  `Machine.Lawful.accepts_toAutomaton` — **the automaton of a lawful machine is well
  formed, moves as the machine does and accepts the same words**.
-/

namespace FiniteState.Machine

open Relation

variable {κ : Type} {m : Machine κ} {k l : κ} {s : Symbol} {u v w : List Symbol}

/-! ### Runs -/

@[simp] theorem runFrom_nil : m.runFrom k [] = some k := rfl

theorem runFrom_cons_eq_some : m.runFrom k (s :: w) = some l ↔
    s ∈ m.alphabet ∧ ∃ k', m.step k s = some k' ∧ m.runFrom k' w = some l := by
  rw [runFrom]
  by_cases hs : s ∈ m.alphabet
  · simp [hs, Option.bind_eq_some_iff]
  · simp [hs]

theorem runFrom_append : m.runFrom k (u ++ v) = (m.runFrom k u).bind fun l => m.runFrom l v := by
  induction u generalizing k with
  | nil => rfl
  | cons s u ih =>
    rw [List.cons_append, runFrom, runFrom]
    split
    · cases m.step k s with
      | none => rfl
      | some k' => exact ih
    · rfl

/-- A run goes on by a step. -/
theorem runFrom_concat_eq_some {k' : κ} (hk : m.runFrom k w = some k') (hs : s ∈ m.alphabet)
    (hl : m.step k' s = some l) : m.runFrom k (w ++ [s]) = some l := by
  rw [runFrom_append, hk, Option.bind_some]
  exact runFrom_cons_eq_some.2 ⟨hs, l, hl, rfl⟩

theorem accepts_iff : m.accepts w = true ↔
    ∃ i l, m.initial = some i ∧ m.runFrom i w = some l ∧ m.accepting l = true := by
  simp only [accepts, Option.any_eq_true, Option.bind_eq_some_iff]
  constructor
  · intro haccepts
    obtain ⟨l, ⟨i, hi, hl⟩, ha⟩ := haccepts
    exact ⟨i, l, hi, hl, ha⟩
  · rintro ⟨i, l, hi, hl, ha⟩
    exact ⟨l, ⟨i, hi, hl⟩, ha⟩

/-- **The states of the machine are listed once each and are not left**, and
nothing happens without reading. -/
structure Lawful (m : Machine κ) : Prop where
  /-- No state is listed twice. -/
  states_nodup : m.states.Nodup
  /-- No symbol is listed twice. -/
  alphabet_nodup : m.alphabet.Nodup
  /-- The initial state is a state. -/
  initial_mem : ∀ {k}, m.initial = some k → k ∈ m.states
  /-- A symbol leads from a state to a state. -/
  step_mem : ∀ {k s l}, k ∈ m.states → s ∈ m.alphabet → m.step k s = some l → l ∈ m.states
  /-- The marker of the empty word leads nowhere. -/
  not_silent : ∀ {k l}, k ∈ m.states → Symbol.epsilon ∈ m.alphabet →
    m.step k Symbol.epsilon ≠ some l

theorem Lawful.runFrom_mem (h : m.Lawful) (hk : k ∈ m.states) (hl : m.runFrom k w = some l) :
    l ∈ m.states := by
  induction w generalizing k with
  | nil => exact Option.some.inj hl ▸ hk
  | cons s w ih =>
    obtain ⟨hs, k', hk', hl⟩ := runFrom_cons_eq_some.1 hl
    exact ih (h.step_mem hk hs hk') hl

/-! ### Discovered states -/

theorem mem_successors : l ∈ m.successors k ↔ ∃ s ∈ m.alphabet, m.step k s = some l := by
  simp [successors, List.mem_filterMap]

theorem exists_runFrom_iff : (∃ w, m.runFrom k w = some l) ↔
    ReflTransGen (Leads m.successors) k l := by
  constructor
  · rintro ⟨w, hl⟩
    induction w generalizing k with
    | nil => exact Option.some.inj hl ▸ .refl
    | cons s w ih =>
      obtain ⟨hs, k', hk', hl⟩ := runFrom_cons_eq_some.1 hl
      exact .head (mem_successors.2 ⟨s, hs, hk'⟩) (ih hl)
  · intro hkl
    induction hkl using ReflTransGen.head_induction_on with
    | refl => exact ⟨[], rfl⟩
    | head hstep _ ih =>
      obtain ⟨s, hs, hk'⟩ := mem_successors.1 hstep
      obtain ⟨w, hw⟩ := ih
      exact ⟨s :: w, runFrom_cons_eq_some.2 ⟨hs, _, hk', hw⟩⟩

variable [DecidableEq κ]

/-- **The places that an exploration of a machine finds** are the states that words
lead to, if the rounds suffice for a list of places that is not left. -/
theorem mem_explore_successors {U : List κ} {rounds : ℕ}
    (hinitial : ∀ k, m.initial = some k → k ∈ U)
    (hstep : ∀ k ∈ U, ∀ s ∈ m.alphabet, ∀ l, m.step k s = some l → l ∈ U)
    (hlen : U.length ≤ rounds) :
    k ∈ explore m.successors rounds m.initial.toList ↔
      ∃ i w, m.initial = some i ∧ m.runFrom i w = some k := by
  have hplaces : m.initial.toList ⊆ U := fun i hi => hinitial i (Option.mem_toList.1 hi)
  have hclosed : ∀ k ∈ U, m.successors k ⊆ U := by
    intro k hk l hl
    obtain ⟨s, hs, hl⟩ := mem_successors.1 hl
    exact hstep k hk s hs l hl
  rw [mem_explore_iff hplaces hclosed hlen]
  constructor
  · rintro ⟨i, hi, hreach⟩
    obtain ⟨w, hw⟩ := exists_runFrom_iff.2 hreach
    exact ⟨i, w, Option.mem_toList.1 hi, hw⟩
  · rintro ⟨i, w, hi, hw⟩
    exact ⟨i, Option.mem_toList.2 hi, exists_runFrom_iff.1 ⟨w, hw⟩⟩

theorem mem_states_discovered {U : List κ} {bound : ℕ}
    (hinitial : ∀ k, m.initial = some k → k ∈ U)
    (hstep : ∀ k ∈ U, ∀ s ∈ m.alphabet, ∀ l, m.step k s = some l → l ∈ U)
    (hlen : U.length ≤ bound) :
    k ∈ (m.discovered bound).states ↔ ∃ i w, m.initial = some i ∧ m.runFrom i w = some k :=
  mem_explore_successors hinitial hstep hlen

/-- Words lead to the states that are discovered, whatever the bound is. -/
theorem exists_runFrom_of_mem_discovered {bound : ℕ} (hk : k ∈ (m.discovered bound).states) :
    ∃ i w, m.initial = some i ∧ m.runFrom i w = some k := by
  obtain ⟨i, hi, hreach⟩ := reached_of_mem_exploreFrom bound (fun x hx => hx)
    (fun x hx => ⟨x, List.mem_eraseDups.1 hx, .refl⟩) k hk
  obtain ⟨w, hw⟩ := exists_runFrom_iff.2 hreach
  exact ⟨i, w, Option.mem_toList.1 hi, hw⟩

/-- **A discovered machine is lawful**, if its states are among no more than the
bound. -/
theorem lawful_discovered {U : List κ} {bound : ℕ} (hnd : m.alphabet.Nodup)
    (hsilent : ∀ k, Symbol.epsilon ∈ m.alphabet → m.step k Symbol.epsilon = none)
    (hinitial : ∀ k, m.initial = some k → k ∈ U)
    (hstep : ∀ k ∈ U, ∀ s ∈ m.alphabet, ∀ l, m.step k s = some l → l ∈ U)
    (hlen : U.length ≤ bound) : (m.discovered bound).Lawful where
  states_nodup := nodup_explore bound _
  alphabet_nodup := hnd
  initial_mem hi := (mem_states_discovered hinitial hstep hlen).2 ⟨_, [], hi, rfl⟩
  step_mem {k s l} hk hs hl := by
    obtain ⟨i, w, hi, hw⟩ := (mem_states_discovered hinitial hstep hlen).1 hk
    exact (mem_states_discovered hinitial hstep hlen).2
      ⟨i, w ++ [s], hi, runFrom_concat_eq_some hw hs hl⟩
  not_silent _ hs hl := by
    have := hl.symm.trans (hsilent _ hs)
    cases this

/-! ### Labels -/

/-- The label of a state: its description, with the primes that it takes. -/
def label (m : Machine κ) (describe : κ → Label) (k : κ) : Label :=
  ((Label.distinct describe m.states).lookup k).getD ""

variable {describe : κ → Label}

theorem lookup_distinct (hk : k ∈ m.states) :
    (Label.distinct describe m.states).lookup k = some (m.label describe k) := by
  obtain ⟨q, hq⟩ := List.exists_lookup_eq_some (l := Label.distinct describe m.states) (k := k)
    (by rwa [Label.map_fst_distinct])
  rw [label, hq, Option.getD_some]

/-- **Different states have different labels.** -/
theorem label_inj (hk : k ∈ m.states) (hl : l ∈ m.states)
    (heq : m.label describe k = m.label describe l) : k = l := by
  have hl' : (Label.distinct describe m.states).lookup l = some (m.label describe l) :=
    lookup_distinct hl
  rw [← heq] at hl'
  exact List.eq_of_lookup_eq_some (Label.nodup_map_snd_distinct _ _) (lookup_distinct hk) hl'

namespace Lawful

variable (h : m.Lawful)

include h

/-- The labels are handed out to the states in order. -/
theorem distinct_eq :
    Label.distinct describe m.states = m.states.map fun k => (k, m.label describe k) := by
  have hfst := Label.map_fst_distinct describe m.states
  have hnd : ((Label.distinct describe m.states).map Prod.fst).Nodup := by
    rw [hfst]
    exact h.states_nodup
  have hval : ∀ e ∈ Label.distinct describe m.states, (e.1, m.label describe e.1) = e := by
    intro e he
    rw [label, List.lookup_eq_some_of_mem hnd he, Option.getD_some]
  -- the states are the first components, and each entry is that of its first component
  conv_rhs => rw [← hfst]
  rw [List.map_map]
  exact ((List.map_congr_left hval).trans (List.map_id _)).symm

theorem states_toAutomaton :
    (m.toAutomaton describe).states = m.states.map (m.label describe) := by
  unfold Automaton.states toAutomaton
  simp only [h.distinct_eq, List.map_map]
  rfl

theorem mem_states_toAutomaton {q : Label} :
    q ∈ (m.toAutomaton describe).states ↔ ∃ k ∈ m.states, m.label describe k = q := by
  rw [h.states_toAutomaton, List.mem_map]

theorem initial_toAutomaton :
    (m.toAutomaton describe).initial = m.initial.map (m.label describe) := by
  unfold toAutomaton
  cases hi : m.initial with
  | none => rfl
  | some k => exact lookup_distinct (h.initial_mem hi)

theorem mem_finals_toAutomaton {q : Label} : q ∈ (m.toAutomaton describe).finals ↔
    ∃ k ∈ m.states, m.accepting k = true ∧ m.label describe k = q := by
  unfold toAutomaton
  simp only [h.distinct_eq, List.mem_map, List.mem_filter, Prod.exists, Prod.mk.injEq]
  constructor
  · intro hfinal
    obtain ⟨k, q, ⟨⟨k, hk, rfl, rfl⟩, ha⟩, rfl⟩ := hfinal
    exact ⟨k, hk, ha, rfl⟩
  · rintro ⟨k, hk, ha, rfl⟩
    exact ⟨k, _, ⟨⟨k, hk, rfl, rfl⟩, ha⟩, rfl⟩

theorem nodup_states_toAutomaton : (m.toAutomaton describe).states.Nodup := by
  rw [h.states_toAutomaton]
  exact h.states_nodup.map_on fun k hk l hl => label_inj hk hl

theorem row?_toAutomaton (hk : k ∈ m.states) :
    (m.toAutomaton describe).row? (m.label describe k) =
      some (m.alphabet.map fun s =>
        (s, .ofTarget? ((m.step k s).bind ((Label.distinct describe m.states).lookup ·)))) := by
  refine List.lookup_eq_some_of_mem h.nodup_states_toAutomaton ?_
  unfold toAutomaton
  refine List.mem_map.2 ⟨(k, m.label describe k), ?_, rfl⟩
  exact List.mem_of_lookup_eq_some (lookup_distinct hk)

/-- The targets of a label are the label of the state that the symbol leads to. -/
theorem mem_targets_toAutomaton (hk : k ∈ m.states) {q : Label} :
    q ∈ (m.toAutomaton describe).targets (m.label describe k) s ↔
      s ∈ m.alphabet ∧ ∃ l, m.step k s = some l ∧ m.label describe l = q := by
  rw [Automaton.targets_of_row _ (h.row?_toAutomaton hk), Row.targets_tabulated]
  split
  · rename_i hs
    cases hl : m.step k s with
    | none => simp [Cell.ofTarget?, Cell.empty, hs]
    | some l =>
      rw [Option.bind_some, lookup_distinct (h.step_mem hk hs hl)]
      simp [Cell.ofTarget?, Cell.ofTargets, hs, eq_comm]
  · rename_i hs
    simp [hs]

/-- Every transition is that of a state. -/
theorem exists_of_mem_targets_toAutomaton {q r : Label}
    (hr : r ∈ (m.toAutomaton describe).targets q s) :
    ∃ k ∈ m.states, m.label describe k = q ∧
      s ∈ m.alphabet ∧ ∃ l, m.step k s = some l ∧ m.label describe l = r := by
  obtain ⟨k, hk, rfl⟩ := h.mem_states_toAutomaton.1 (Automaton.mem_states_of_mem_targets _ hr)
  exact ⟨k, hk, rfl, (h.mem_targets_toAutomaton hk).1 hr⟩

theorem deterministic_toAutomaton (describe : κ → Label) :
    (m.toAutomaton describe).Deterministic where
  target_unique hr hr' := by
    obtain ⟨k, hk, rfl, -, l, hl, rfl⟩ := h.exists_of_mem_targets_toAutomaton hr
    obtain ⟨-, l', hl', rfl⟩ := (h.mem_targets_toAutomaton hk).1 hr'
    rw [Option.some.inj (hl.symm.trans hl')]
  not_silent hr := by
    obtain ⟨k, hk, -, hs, l, hl, -⟩ := h.exists_of_mem_targets_toAutomaton hr
    exact h.not_silent hk hs hl

/-- **The automaton of a lawful machine is well formed.** -/
theorem wellFormed (describe : κ → Label) : (m.toAutomaton describe).WellFormed where
  states_nodup := h.nodup_states_toAutomaton
  alphabet_nodup := h.alphabet_nodup
  row_symbols e he := by
    obtain ⟨⟨k, q⟩, -, rfl⟩ := List.mem_map.1 he
    exact (List.map_map).trans (List.map_id _)
  target_mem hr := by
    obtain ⟨k, hk, -, hs, l, hl, rfl⟩ := h.exists_of_mem_targets_toAutomaton hr
    exact h.mem_states_toAutomaton.2 ⟨l, h.step_mem hk hs hl, rfl⟩
  initial_mem hq := by
    rw [h.initial_toAutomaton, Option.map_eq_some_iff] at hq
    obtain ⟨k, hk, rfl⟩ := hq
    exact h.mem_states_toAutomaton.2 ⟨k, h.initial_mem hk, rfl⟩
  final_mem hq := by
    obtain ⟨k, hk, -, rfl⟩ := h.mem_finals_toAutomaton.1 hq
    exact h.mem_states_toAutomaton.2 ⟨k, hk, rfl⟩
  finals_nodup := by
    have hsub : (m.toAutomaton describe).finals.Sublist
        ((Label.distinct describe m.states).map Prod.snd) :=
      List.Sublist.map Prod.snd List.filter_sublist
    exact (Label.nodup_map_snd_distinct describe m.states).sublist hsub
  deterministic _ := h.deterministic_toAutomaton describe

/-! ### Paths -/

/-- **The automaton of a lawful machine moves as the machine does.** -/
theorem path_toAutomaton (hk : k ∈ m.states) {r : Label} :
    (m.toAutomaton describe).Path (m.label describe k) w r ↔
      ∃ l, m.runFrom k w = some l ∧ m.label describe l = r := by
  induction w generalizing k with
  | nil =>
    constructor
    · intro hpath
      exact ⟨k, rfl, hpath.eq_of_nil (h.deterministic_toAutomaton describe).not_silent⟩
    · rintro ⟨l, hl, rfl⟩
      obtain rfl := Option.some.inj hl
      exact .nil _
  | cons s w ih =>
    -- both take one step on the symbol, to a state and to its label
    rw [Automaton.Path.cons_iff_of_not_silent (h.deterministic_toAutomaton describe).not_silent]
    constructor
    · rintro ⟨q, hq, htail⟩
      obtain ⟨hs, k', hk', rfl⟩ := (h.mem_targets_toAutomaton hk).1 hq
      obtain ⟨l, hl, rfl⟩ := (ih (h.step_mem hk hs hk')).1 htail
      exact ⟨l, runFrom_cons_eq_some.2 ⟨hs, k', hk', hl⟩, rfl⟩
    · rintro ⟨l, hl, rfl⟩
      obtain ⟨hs, k', hk', hl⟩ := runFrom_cons_eq_some.1 hl
      exact ⟨_, (h.mem_targets_toAutomaton hk).2 ⟨hs, k', hk', rfl⟩,
        (ih (h.step_mem hk hs hk')).2 ⟨l, hl, rfl⟩⟩

theorem acceptsFrom_toAutomaton (hk : k ∈ m.states) :
    (m.toAutomaton describe).AcceptsFrom (m.label describe k) w ↔
      ∃ l, m.runFrom k w = some l ∧ m.accepting l = true := by
  constructor
  · rintro ⟨f, hf, hpath⟩
    obtain ⟨l, hl, rfl⟩ := (h.path_toAutomaton hk).1 hpath
    -- the accepting label is that of an accepting state, and of no other
    obtain ⟨l', hl', ha, heq⟩ := h.mem_finals_toAutomaton.1 hf
    rw [label_inj hl' (h.runFrom_mem hk hl) heq] at ha
    exact ⟨l, hl, ha⟩
  · rintro ⟨l, hl, ha⟩
    exact ⟨m.label describe l, h.mem_finals_toAutomaton.2 ⟨l, h.runFrom_mem hk hl, ha, rfl⟩,
      (h.path_toAutomaton hk).2 ⟨l, hl, rfl⟩⟩

/-- **The automaton of a lawful machine accepts the words of the machine.** -/
theorem accepts_toAutomaton : (m.toAutomaton describe).accepts w = m.accepts w := by
  rw [Bool.eq_iff_iff, (h.wellFormed describe).accepts_iff, accepts_iff, h.initial_toAutomaton]
  simp only [Option.map_eq_some_iff]
  constructor
  · intro hlabels
    obtain ⟨_, ⟨i, hi, rfl⟩, haccepts⟩ := hlabels
    obtain ⟨l, hl, ha⟩ := (h.acceptsFrom_toAutomaton (h.initial_mem hi)).1 haccepts
    exact ⟨i, l, hi, hl, ha⟩
  · rintro ⟨i, l, hi, hl, ha⟩
    exact ⟨_, ⟨i, hi, rfl⟩, (h.acceptsFrom_toAutomaton (h.initial_mem hi)).2 ⟨l, hl, ha⟩⟩

end Lawful

end FiniteState.Machine
