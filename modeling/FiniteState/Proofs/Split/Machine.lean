import FiniteState.Proofs.Automaton.Constructed
import FiniteState.Proofs.Split.Edit

/-!
# Writing a machine

Where the states of a machine are known before anything is written, the script has a simple form:
first the symbols and the states, then for each state its transitions and its mark, and the initial
state at the end.  Performed on an empty table it writes the automaton of the machine.

## Main definitions

* `Machine.script` — the script of a machine.

## Main results

* `Machine.Lawful.performAll_script` — **the script writes the automaton of the machine**.
* `Machine.Lawful.split_script` — and so it does in two collections.
-/

namespace FiniteState

/-! ### The script of a machine -/

namespace Machine

variable {κ : Type}

/-- The edits that write a state: its transitions and its mark. -/
def edits (m : Machine κ) (label : κ → Label) (k : κ) : List Edit :=
  (m.alphabet.filterMap fun s =>
    (m.step k s).map fun l => .transition (label k) s (label l)) ++
    if m.accepting k then [.final (label k)] else []

/-- The script of a machine, whose states have the given labels. -/
def script (m : Machine κ) (label : κ → Label) : List Edit :=
  m.alphabet.map .symbol ++ m.states.map (fun k => .state (label k)) ++
    m.states.flatMap (m.edits label) ++ [.initial (m.initial.map label)]

variable {m : Machine κ} {label : κ → Label} {k : κ} {q r : Label} {s : Symbol}

theorem mem_edits {e : Edit} : e ∈ m.edits label k ↔
    (∃ s ∈ m.alphabet, ∃ l, m.step k s = some l ∧ e = .transition (label k) s (label l)) ∨
      m.accepting k = true ∧ e = .final (label k) := by
  rw [edits, List.mem_append]
  refine or_congr ?_ ?_
  · simp only [List.mem_filterMap, Option.map_eq_some_iff]
    constructor
    · rintro ⟨s, hs, l, hl, rfl⟩
      exact ⟨s, hs, l, hl, rfl⟩
    · rintro ⟨s, hs, l, hl, rfl⟩
      exact ⟨s, hs, l, hl, rfl⟩
  · split <;> simp [*]

theorem transition_mem_script : .transition q s r ∈ m.script label ↔
    ∃ k ∈ m.states, s ∈ m.alphabet ∧ label k = q ∧ ∃ l, m.step k s = some l ∧ label l = r := by
  simp only [script, List.mem_append, List.mem_map, List.mem_flatMap, List.mem_singleton]
  constructor
  · rintro (((⟨t, -, heq⟩ | ⟨k, -, heq⟩) | ⟨k, hk, he⟩) | heq)
    · cases heq
    · cases heq
    · rcases mem_edits.1 he with ⟨t, hs, l, hl, heq⟩ | ⟨-, heq⟩
      · obtain ⟨rfl, rfl, rfl⟩ := Edit.transition.inj heq
        exact ⟨k, hk, hs, rfl, l, hl, rfl⟩
      · cases heq
    · cases heq
  · rintro ⟨k, hk, hs, rfl, l, hl, rfl⟩
    exact .inl (.inr ⟨k, hk, mem_edits.2 (.inl ⟨s, hs, l, hl, rfl⟩)⟩)

theorem unmark_notMem_script (q : Label) : .unmark q ∉ m.script label := by
  simp [script, mem_edits]

theorem finals_edits (k : κ) :
    (m.edits label k).flatMap Edit.finals = if m.accepting k then [label k] else [] := by
  have hnone : (m.alphabet.filterMap fun s => (m.step k s).map fun l =>
      Edit.transition (label k) s (label l)).flatMap Edit.finals = [] := by
    refine List.flatMap_eq_nil_iff.2 fun e he => ?_
    obtain ⟨s, -, hl⟩ := List.mem_filterMap.1 he
    obtain ⟨l, -, rfl⟩ := Option.map_eq_some_iff.1 hl
    rfl
  rw [edits, List.flatMap_append, hnone, List.nil_append]
  split <;> rfl

theorem finals_script :
    (m.script label).flatMap Edit.finals = (m.states.filter m.accepting).map label := by
  have hfinals : ∀ ks : List κ,
      (ks.flatMap (m.edits label)).flatMap Edit.finals = (ks.filter m.accepting).map label := by
    intro ks
    induction ks with
    | nil => rfl
    | cons k ks ih =>
      rw [List.flatMap_cons, List.flatMap_append, ih, finals_edits, List.filter_cons]
      split <;> rfl
  rw [script, List.flatMap_append, List.flatMap_append, List.flatMap_append,
    Edit.flatMap_finals_symbol, Edit.flatMap_finals_state, hfinals]
  simp [Edit.finals]

/-- The states are written in their order, and the other edits name no further ones. -/
theorem states_script : (m.script label).flatMap Edit.states = m.states.map label ++
    ((m.states.flatMap (m.edits label)).flatMap Edit.states ++ (m.initial.map label).toList) := by
  rw [script, List.flatMap_append, List.flatMap_append, List.flatMap_append,
    Edit.flatMap_states_symbol, Edit.flatMap_states_state, List.nil_append, List.append_assoc,
    List.flatMap_singleton]
  rfl

theorem symbols_script : (m.script label).flatMap Edit.symbols =
    m.alphabet ++ (m.states.flatMap (m.edits label)).flatMap Edit.symbols := by
  rw [script, List.flatMap_append, List.flatMap_append, List.flatMap_append,
    Edit.flatMap_symbols_symbol, Edit.flatMap_symbols_state, List.append_nil,
    List.flatMap_singleton]
  exact List.append_nil _

namespace Lawful

variable [DecidableEq κ] (h : m.Lawful)

include h

/-- **The script writes the automaton of the machine.** -/
theorem performAll_script (describe : κ → Label) :
    Automaton.empty.performAll (m.script (m.label describe)) =
      (m.toAutomaton describe).withDeterminized false := by
  have hwf := Automaton.wellFormed_empty.performAll rfl (m.script (m.label describe))
  have hfilled := (h.wellFormed describe).withDeterminized_false
  have hnd : (m.states.map (m.label describe)).Nodup := by
    rw [← h.states_toAutomaton]
    exact h.nodup_states_toAutomaton
  have hmem {k : κ} (hk : k ∈ m.states) :
      m.label describe k ∈ m.states.map (m.label describe) := List.mem_map.2 ⟨k, hk, rfl⟩
  refine hwf.ext_views hfilled ?_ ?_ (fun q s r => ?_) (fun q s => ?_) ?_ ?_ ?_
  · -- the other edits name states of the machine
    rw [Automaton.states_performAll]
    show _ = (m.toAutomaton describe).states
    rw [h.states_toAutomaton, states_script]
    refine insertAll_append_of_subset hnd fun q hq => ?_
    rcases List.mem_append.1 hq with hq | hq
    · obtain ⟨e, he, hq⟩ := List.mem_flatMap.1 hq
      obtain ⟨k, hk, he⟩ := List.mem_flatMap.1 he
      rcases mem_edits.1 he with ⟨s, hs, l, hl, rfl⟩ | ⟨-, rfl⟩
      · rcases List.mem_pair.1 hq with rfl | rfl
        · exact hmem hk
        · exact hmem (h.step_mem hk hs hl)
      · rw [List.mem_singleton.1 hq]
        exact hmem hk
    · obtain ⟨i, hi, rfl⟩ := Option.map_eq_some_iff.1 (Option.mem_toList.1 hq)
      exact hmem (h.initial_mem hi)
  · rw [Automaton.alphabet_performAll, symbols_script]
    refine insertAll_append_of_subset h.alphabet_nodup fun s hs => ?_
    obtain ⟨e, he, hs⟩ := List.mem_flatMap.1 hs
    obtain ⟨k, -, he⟩ := List.mem_flatMap.1 he
    rcases mem_edits.1 he with ⟨t, ht, l, -, rfl⟩ | ⟨-, rfl⟩
    · rwa [List.mem_singleton.1 hs]
    · exact absurd hs List.not_mem_nil
  · rw [Automaton.mem_targets_empty_performAll, transition_mem_script]
    show _ ↔ r ∈ (m.toAutomaton describe).targets q s
    constructor
    · rintro ⟨k, hk, hs, rfl, hl⟩
      exact (h.mem_targets_toAutomaton hk).2 ⟨hs, hl⟩
    · intro hr
      obtain ⟨k, hk, rfl, hs, hl⟩ := h.exists_of_mem_targets_toAutomaton hr
      exact ⟨k, hk, hs, rfl, hl⟩
  · rw [Automaton.rejected_performAll]
    exact (Automaton.rejected_eq_none fun e he _ =>
      (h.constructed describe).unrejected e he).symm
  · rw [Automaton.initial_performAll, script, List.foldl_append]
    exact h.initial_toAutomaton.symm
  · rw [Automaton.finals_performAll, Edit.foldl_marks unmark_notMem_script, finals_script]
    show _ = (m.toAutomaton describe).finals
    rw [h.finals_toAutomaton]
    exact insertAll_of_nodup (hnd.sublist (List.filter_sublist.map _))
  · rw [Automaton.determinized_performAll]
    rfl

/-- In two collections it does the same. -/
theorem split_script (describe : κ → Label) :
    SplitAutomaton.empty.performAll (m.script (m.label describe)) =
      (m.toAutomaton describe).split.withDeterminized false := by
  have hsplit := Automaton.wellFormed_empty.split_performAll rfl (m.script (m.label describe))
  rw [h.performAll_script] at hsplit
  exact hsplit.symm

end Lawful

/-! ### Fewer states -/

/-- Only the descriptions of the states matter to the automaton of a machine. -/
theorem toAutomaton_congr [DecidableEq κ] {describe describe' : κ → Label}
    (heq : ∀ k ∈ m.states, describe k = describe' k) :
    m.toAutomaton describe = m.toAutomaton describe' := by
  have hdistinct (taken : List Label) {keys : List κ} (hkeys : ∀ k ∈ keys, k ∈ m.states) :
      Label.distinctFrom describe taken keys = Label.distinctFrom describe' taken keys := by
    induction keys generalizing taken with
    | nil => rfl
    | cons k keys ih =>
      rw [List.forall_mem_cons] at hkeys
      rw [Label.distinctFrom, Label.distinctFrom, heq k hkeys.1, ih _ hkeys.2]
  have hnames : Label.distinct describe m.states = Label.distinct describe' m.states :=
    hdistinct [] fun _ hk => hk
  rw [toAutomaton, toAutomaton, hnames]

/-- **A machine that leaves out some states of another one**, and what leads to them, has the
automaton of the other one without their labels. -/
theorem Lawful.toAutomaton_eq_keepStates [DecidableEq κ] {m' : Machine κ} (h : m.Lawful)
    (h' : m'.Lawful) {describe : κ → Label} {p : Label → Bool}
    (hstates : m'.states = m.states.filter fun k => p (m.label describe k))
    (halphabet : m'.alphabet = m.alphabet)
    (hinitial : m'.initial = m.initial.filter fun k => p (m.label describe k))
    (haccepting : m'.accepting = m.accepting)
    (hstep : ∀ k ∈ m'.states, ∀ s ∈ m.alphabet, ∀ l, m'.step k s = some l ↔
      m.step k s = some l ∧ p (m.label describe l) = true) :
    m'.toAutomaton (m.label describe) = (m.toAutomaton describe).keepStates p := by
  have hmem {k : κ} (hk : k ∈ m'.states) : k ∈ m.states ∧ p (m.label describe k) = true :=
    List.mem_filter.1 (hstates ▸ hk)
  refine h'.toAutomaton_eq ((h.constructed describe).keepStates p) ?_ halphabet ?_
    (fun k hk => ?_) fun k hk s r => ?_
  · rw [Automaton.states_keepStates, h.states_toAutomaton, List.filter_map, hstates]
    rfl
  · rw [Automaton.initial_keepStates, h.initial_toAutomaton, hinitial]
    cases m.initial with
    | none => rfl
    | some i =>
      rw [Option.map_some, Option.filter_some, Option.filter_some]
      split <;> rfl
  · rw [Automaton.finals_keepStates, List.mem_filter, and_iff_left (hmem hk).2,
      h.mem_finals_toAutomaton, haccepting]
    constructor
    · exact fun hfinal => ⟨k, (hmem hk).1, hfinal, rfl⟩
    · rintro ⟨l, hl, hfinal, heq⟩
      rwa [← label_inj hl (hmem hk).1 heq]
  · rw [Automaton.mem_targets_keepStates, and_iff_right (hmem hk).2,
      h.mem_targets_toAutomaton (hmem hk).1, halphabet]
    constructor
    · rintro ⟨hpr, hs, l, hl, rfl⟩
      exact ⟨hs, l, (hstep k hk s hs l).2 ⟨hl, hpr⟩, rfl⟩
    · rintro ⟨hs, l, hl, rfl⟩
      obtain ⟨hl, hpl⟩ := (hstep k hk s hs l).1 hl
      exact ⟨hpl, hs, l, hl, rfl⟩

end Machine

end FiniteState
