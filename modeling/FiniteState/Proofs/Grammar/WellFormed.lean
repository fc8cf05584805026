import FiniteState.Grammar.Conversion
import FiniteState.Proofs.Automaton.Named
import FiniteState.Proofs.Grammar.Proper

/-!
# Automata of grammars are well formed

The automaton of a grammar has the nonterminals as its states, beside the
accepting sentinel.  Nonterminals are letters, so none of them is the sentinel,
and the start symbol is one of them.

## Main results

* `Grammar.mem_states_ofGrammar`, `Grammar.Proper.mem_targets_ofGrammar`,
  `Grammar.Proper.targets_sentinel` — states and transitions of the automaton of a grammar.
* `Grammar.Proper.wellFormed`, `Grammar.Proper.named` — **the automaton of a proper grammar
  is well formed**, and its labels and symbols are as they should be.
-/

namespace FiniteState

namespace Grammar

variable {g : Grammar} {n t : Symbol} {q r : Label}

theorem mem_targets {head : Symbol} : r ∈ g.targets head t ↔
    .terminal t ∈ g.alternatives head ∧ r = Label.sentinel ∨
      ∃ n, .step t n ∈ g.alternatives head ∧ r = Label.ofChar n := by
  simp only [targets, LabelSet.mem_ofList, List.mem_filterMap]
  constructor
  · rintro ⟨p, hp, hr⟩
    cases p with
    | empty => cases hr
    | terminal u =>
      obtain ⟨rfl, heq⟩ := Option.ite_none_right_eq_some.1 hr
      exact .inl ⟨hp, (Option.some.inj heq).symm⟩
    | step u n =>
      obtain ⟨rfl, heq⟩ := Option.ite_none_right_eq_some.1 hr
      exact .inr ⟨n, hp, (Option.some.inj heq).symm⟩
  · rintro (⟨hp, rfl⟩ | ⟨n, hp, rfl⟩)
    · exact ⟨_, hp, if_pos rfl⟩
    · exact ⟨_, hp, if_pos rfl⟩

theorem ofChar_ne_sentinel (hn : Symbol.isNonterminal n = true) :
    Label.ofChar n ≠ Label.sentinel := by
  intro heq
  obtain rfl : n = '$' := Label.ofChar_injective heq
  cases hn

theorem states_ofGrammar (g : Grammar) :
    (Automaton.ofGrammar g).states = g.nonterminals.map Label.ofChar ++ [Label.sentinel] := by
  unfold Automaton.states Automaton.ofGrammar
  rw [List.map_append, List.map_map]
  rfl

theorem mem_states_ofGrammar : q ∈ (Automaton.ofGrammar g).states ↔
    (∃ n ∈ g.nonterminals, q = Label.ofChar n) ∨ q = Label.sentinel := by
  simp [states_ofGrammar, eq_comm]

namespace Proper

variable (h : g.Proper)

include h

theorem nodup_states : (Automaton.ofGrammar g).states.Nodup := by
  have hnd : (g.nonterminals.map Label.ofChar).Nodup :=
    (List.nodup_eraseDups _).map Label.ofChar_injective
  rw [states_ofGrammar, ← List.concat_eq_append]
  refine hnd.concat fun hmem => ?_
  obtain ⟨n, hn, heq⟩ := List.mem_map.1 hmem
  exact ofChar_ne_sentinel (h.isNonterminal hn) heq

/-- The transitions of a nonterminal are its alternatives. -/
theorem mem_targets_ofGrammar (hn : n ∈ g.nonterminals) :
    r ∈ (Automaton.ofGrammar g).targets (Label.ofChar n) t ↔
      .terminal t ∈ g.alternatives n ∧ r = Label.sentinel ∨
        ∃ m, .step t m ∈ g.alternatives n ∧ r = Label.ofChar m := by
  have hrow : (Automaton.ofGrammar g).row? (Label.ofChar n) =
      some (g.terminals.map fun t => (t, .ofTargets (g.targets n t))) := by
    refine List.lookup_eq_some_of_mem h.nodup_states ?_
    exact List.mem_append_left _ (List.mem_map.2 ⟨n, hn, rfl⟩)
  rw [Automaton.targets_of_row _ hrow, Row.targets_tabulated, ← mem_targets]
  by_cases ht : t ∈ g.terminals
  · rw [if_pos ht]
    rfl
  · rw [if_neg ht]
    refine iff_of_false (LabelSet.notMem_empty r) fun hr => ht ?_
    -- the symbol of an alternative has a column
    rcases mem_targets.1 hr with ⟨hp, -⟩ | ⟨m, hp, -⟩
    · exact terminalSymbol_mem_terminals hp
    · exact terminalSymbol_mem_terminals hp

theorem targets_sentinel : (Automaton.ofGrammar g).targets Label.sentinel t = ∅ := by
  have hrow : (Automaton.ofGrammar g).row? Label.sentinel =
      some (g.terminals.map fun t => (t, .empty)) := by
    refine List.lookup_eq_some_of_mem h.nodup_states ?_
    exact List.mem_append_right _ (List.mem_cons_self)
  rw [Automaton.targets_of_row _ hrow, Row.targets_tabulated]
  split <;> rfl

theorem mem_states_of_mem_targets (hr : r ∈ (Automaton.ofGrammar g).targets q t) :
    r ∈ (Automaton.ofGrammar g).states := by
  rcases mem_states_ofGrammar.1 (Automaton.mem_states_of_mem_targets _ hr) with ⟨n, hn, rfl⟩ | rfl
  · rw [mem_states_ofGrammar]
    rcases (h.mem_targets_ofGrammar hn).1 hr with ⟨-, rfl⟩ | ⟨m, hm, rfl⟩
    · exact .inr rfl
    · exact .inl ⟨m, mem_nonterminals_of_step hm, rfl⟩
  · rw [h.targets_sentinel] at hr
    exact absurd hr (LabelSet.notMem_empty r)

/-- **The automaton of a proper grammar is well formed.** -/
theorem wellFormed : (Automaton.ofGrammar g).WellFormed where
  states_nodup := h.nodup_states
  alphabet_nodup := List.nodup_eraseDups _
  row_symbols e he := by
    rcases List.mem_append.1 he with he | he
    · obtain ⟨n, -, rfl⟩ := List.mem_map.1 he
      exact (List.map_map).trans (List.map_id _)
    · obtain ⟨n, -, rfl⟩ := List.mem_map.1 he
      exact (List.map_map).trans (List.map_id _)
  target_mem hr := h.mem_states_of_mem_targets hr
  initial_mem hq := by
    obtain rfl := Option.some.inj hq
    exact mem_states_ofGrammar.2 (.inl ⟨g.start, h.start_mem, rfl⟩)
  final_mem hq := by
    rw [mem_states_ofGrammar]
    rcases List.mem_cons.1 hq with rfl | hq
    · exact .inr rfl
    · split at hq
      · exact .inl ⟨g.start, h.start_mem, List.mem_singleton.1 hq⟩
      · exact absurd hq List.not_mem_nil
  finals_nodup := by
    have hne := ofChar_ne_sentinel (h.isNonterminal h.start_mem)
    unfold Automaton.ofGrammar
    split
    · simpa using hne.symm
    · simp
  deterministic hflag := by cases hflag

/-- Nonterminals and the sentinel are valid labels. -/
theorem named : (Automaton.ofGrammar g).Named := by
  refine ⟨fun q hq => ?_, fun t ht => h.isTransitionSymbol ht⟩
  rcases mem_states_ofGrammar.1 hq with ⟨n, hn, rfl⟩ | rfl
  · exact Label.valid_ofChar (h.isNonterminal hn)
  · exact Label.valid_sentinel

end Proper

end Grammar

end FiniteState
