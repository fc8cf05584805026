import FiniteState.Proofs.Grammar.Canonical
import FiniteState.Proofs.Split.Construct

/-!
# What is copied

A union copies its right operand next to the left one, and an automaton of a grammar copies the
alternatives of its nonterminals.  Both write edit by edit what the running definitions fill in one
go.  It is told from the views of the table, which a script determines.

## Main results

* `Automaton.Apart.performAll_joinScript`, `Grammar.performAll_grammarScript` — what the scripts
  write.
* `Automaton.WellFormed.split_union`, `Grammar.split_ofDraft` — **the constructions in two
  collections are the running ones**.
-/

namespace FiniteState

open SplitAutomaton

/-! ### Unions -/

namespace Automaton

variable {fa fb : Automaton} {start accept q r : Label} {s : Symbol}

section Script

variable {initial : Option Label} {finals : List Label}

/-- Copied are the transitions of the copied automaton. -/
theorem WellFormed.transition_mem_copyScript (h : fb.WellFormed) :
    .transition q s r ∈ copyScript fb ↔ r ∈ fb.targets q s := by
  have hcell : .transition q s r ∈ copyScript fb ↔ ∃ c, (q, s, c) ∈ fb.cells ∧ r ∈ c.targets := by
    simp [copyScript, LabelSet.mem_toList]
  rw [hcell]
  constructor
  · rintro ⟨c, hc, hr⟩
    rwa [h.targets_of_mem_cells hc]
  · intro hr
    obtain ⟨c, hc, heq⟩ := exists_cell_of_mem_targets hr
    exact ⟨c, hc, heq ▸ hr⟩

theorem WellFormed.transition_mem_joinScript (h : fb.WellFormed) :
    .transition q s r ∈ joinScript initial finals fb start accept ↔ r ∈ fb.targets q s ∨
      q = start ∧ s = Symbol.epsilon ∧ (initial = some r ∨ fb.initial = some r) ∨
      (q ∈ finals ∨ q ∈ fb.finals) ∧ s = Symbol.epsilon ∧ r = accept := by
  have hmem : .transition q s r ∈ joinScript initial finals fb start accept ↔
      .transition q s r ∈ copyScript fb ∨ (start = q ∧ Symbol.epsilon = s ∧ initial = some r ∨
        start = q ∧ Symbol.epsilon = s ∧ fb.initial = some r) ∨
        (q ∈ finals ∧ s = Symbol.epsilon ∧ r = accept ∨
          q ∈ fb.finals ∧ s = Symbol.epsilon ∧ r = accept) := by
    simp [joinScript, or_assoc, and_assoc, and_comm, and_left_comm]
  rw [hmem, h.transition_mem_copyScript, ← and_or_left, ← and_or_left, ← or_and_right,
    eq_comm (a := start), eq_comm (a := Symbol.epsilon)]

/-- A copy writes the states of the copied automaton. -/
theorem WellFormed.states_copyScript (h : fb.WellFormed) {l : List Label}
    (hnd : (l ++ fb.states).Nodup) :
    ((copyScript fb).flatMap Edit.states).foldl insertNew l = l ++ fb.states := by
  have hstates : (fb.states.map Edit.state).flatMap Edit.states = fb.states :=
    (Edit.flatMap_states_state id fb.states).trans (List.map_id _)
  rw [copyScript, List.flatMap_append, List.flatMap_append, Edit.flatMap_states_symbol, hstates,
    List.nil_append, List.foldl_append, foldl_insertNew_of_nodup hnd]
  refine foldl_insertNew_of_subset fun q hq => List.mem_append_right _ ?_
  -- a transition leads from a state to a state
  obtain ⟨e, he, hq⟩ := List.mem_flatMap.1 hq
  obtain ⟨⟨p, s, c⟩, hc, he⟩ := List.mem_flatMap.1 he
  obtain ⟨r, hr, rfl⟩ := List.mem_map.1 he
  have htarget : r ∈ fb.targets p s := by rwa [h.targets_of_mem_cells hc]
  rcases List.mem_pair.1 hq with rfl | rfl
  · exact mem_states_of_mem_targets _ htarget
  · exact h.target_mem htarget

theorem WellFormed.symbols_copyScript (h : fb.WellFormed) (l : List Symbol) :
    ((copyScript fb).flatMap Edit.symbols).foldl insertNew l = fb.alphabet.foldl insertNew l := by
  have hstates : (fb.states.map Edit.state).flatMap Edit.symbols = [] :=
    Edit.flatMap_symbols_state id fb.states
  rw [copyScript, List.flatMap_append, List.flatMap_append, Edit.flatMap_symbols_symbol, hstates,
    List.append_nil, List.foldl_append]
  refine foldl_insertNew_of_subset fun s hs => mem_foldl_insertNew.2 (.inr ?_)
  obtain ⟨e, he, hs⟩ := List.mem_flatMap.1 hs
  obtain ⟨⟨p, t, c⟩, hc, he⟩ := List.mem_flatMap.1 he
  obtain ⟨r, hr, rfl⟩ := List.mem_map.1 he
  have htarget : r ∈ fb.targets p t := by rwa [h.targets_of_mem_cells hc]
  rw [List.mem_singleton.1 hs]
  exact h.symbol_mem htarget

end Script

section Joined

variable (h : Apart fa fb start accept) (hfa : fa.WellFormed) (hfb : fb.WellFormed)

include h hfa hfb

/-- The transitions of joined automata are those of both and those of the two new states. -/
theorem Apart.mem_targets_joined : r ∈ (joined fa fb start accept).targets q s ↔
    r ∈ fa.targets q s ∨ r ∈ fb.targets q s ∨
      q = start ∧ s = Symbol.epsilon ∧ (fa.initial = some r ∨ fb.initial = some r) ∨
      (q ∈ fa.finals ∨ q ∈ fb.finals) ∧ s = Symbol.epsilon ∧ r = accept := by
  constructor
  · intro hr
    rcases mem_states_joined.1 (mem_states_of_mem_targets _ hr) with hq | hq | rfl | rfl
    · rcases (mem_targets_joined_left hfa hq).1 hr with hr | ⟨hs, hq, hr⟩
      · exact .inl hr
      · exact .inr (.inr (.inr ⟨.inl hq, hs, hr⟩))
    · rcases (h.mem_targets_joined_right hfb hq).1 hr with hr | ⟨hs, hq, hr⟩
      · exact .inr (.inl hr)
      · exact .inr (.inr (.inr ⟨.inr hq, hs, hr⟩))
    · obtain ⟨hs, hr⟩ := h.mem_targets_joined_start.1 hr
      exact .inr (.inr (.inl ⟨rfl, hs, hr⟩))
    · exact absurd hr h.notMem_targets_joined_accept
  · rintro (hr | hr | ⟨rfl, hs, hr⟩ | ⟨hq | hq, hs, hr⟩)
    · exact (mem_targets_joined_left hfa (mem_states_of_mem_targets _ hr)).2 (.inl hr)
    · exact (h.mem_targets_joined_right hfb (mem_states_of_mem_targets _ hr)).2 (.inl hr)
    · exact h.mem_targets_joined_start.2 ⟨hs, hr⟩
    · exact (mem_targets_joined_left hfa (hfa.final_mem hq)).2 (.inr ⟨hs, hq, hr⟩)
    · exact (h.mem_targets_joined_right hfb (hfb.final_mem hq)).2 (.inr ⟨hs, hq, hr⟩)

omit h hfb in
/-- Only the texts of the left automaton are kept. -/
theorem rejected_joined :
    (joined fa fb start accept).rejected q s = fa.rejected q s := by
  by_cases hq : q ∈ fa.states
  · rw [rejected, cell?, row?_joined, lookup_tabulate, if_pos hq, Option.some_or, Option.some_or,
      Option.bind_some, List.lookup_tabulated]
    split
    · rw [Option.bind_some, joinedCell, rejected, cellD]
      cases hc : fa.cell? q s with
      | none => split <;> rfl
      | some c => split <;> rfl
    · rename_i hs
      rw [mem_joinedAlphabet, not_or] at hs
      rw [rejected, hfa.cell?_eq_none fun hc => hs.1 hc.2]
  · have hcells : ∀ e ∈ (joined fa fb start accept).rows, e.1 = q → ∀ x ∈ e.2,
        x.2.rejected = none := by
      intro e he heq x hx
      unfold joined at he
      simp only [List.mem_append, tabulate, List.mem_map] at he
      obtain ((⟨p, hp, rfl⟩ | ⟨p, -, rfl⟩) | ⟨p, -, rfl⟩) | ⟨p, -, rfl⟩ := he
      · exact absurd (heq ▸ hp) hq
      · obtain ⟨t, -, rfl⟩ := List.mem_map.1 hx
        show (joinedCell _ _ _ _ _).rejected = none
        unfold joinedCell
        split <;> rfl
      · obtain ⟨t, -, rfl⟩ := List.mem_map.1 hx
        show (if _ then _ else _ : Cell).rejected = none
        split <;> rfl
      · obtain ⟨t, -, rfl⟩ := List.mem_map.1 hx
        rfl
    have hold : fa.rejected q s = none := by
      rw [rejected, hfa.cell?_eq_none fun hc => hq hc.1]
      rfl
    rw [hold, rejected_eq_none hcells]

/-- The states of both automata are written in this order, and then the two new ones. -/
theorem Apart.states_joinScript :
    ((joinScript fa.initial fa.finals fb start accept).flatMap Edit.states).foldl insertNew
      fa.states = (joined fa fb start accept).states := by
  have hboth : (fa.states ++ fb.states).Nodup :=
    List.nodup_append'.2 ⟨hfa.states_nodup, hfb.states_nodup, fun q => h.disjoint q⟩
  have hstart : start ∉ fa.states ++ fb.states := by simp [h.start_left, h.start_right]
  have haccept : accept ∉ fa.states ++ fb.states ++ [start] := by
    simp [h.accept_left, h.accept_right, h.start_ne_accept.symm]
  -- the transitions of the new states name old ones
  have hinitials : ∀ q ∈ ((fa.initial.toList ++ fb.initial.toList).map
      fun p => Edit.transition start Symbol.epsilon p).flatMap Edit.states,
      q ∈ fa.states ++ fb.states ++ [start] := by
    intro q hq
    obtain ⟨e, he, hq⟩ := List.mem_flatMap.1 hq
    obtain ⟨p, hp, rfl⟩ := List.mem_map.1 he
    rcases List.mem_pair.1 hq with rfl | rfl
    · simp
    · rcases List.mem_append.1 hp with hp | hp
      · simp [hfa.initial_mem (Option.mem_toList.1 hp)]
      · simp [hfb.initial_mem (Option.mem_toList.1 hp)]
  have hfinals : ∀ q ∈ ((fa.finals ++ fb.finals).flatMap
      fun q => [Edit.transition q Symbol.epsilon accept, .unmark q]).flatMap Edit.states,
      q ∈ fa.states ++ fb.states ++ [start] ++ [accept] := by
    intro q hq
    obtain ⟨e, he, hq⟩ := List.mem_flatMap.1 hq
    obtain ⟨p, hp, he⟩ := List.mem_flatMap.1 he
    rcases List.mem_pair.1 he with rfl | rfl
    · rcases List.mem_pair.1 hq with rfl | rfl
      · rcases List.mem_append.1 hp with hp | hp
        · simp [hfa.final_mem hp]
        · simp [hfb.final_mem hp]
      · simp
    · exact absurd hq List.not_mem_nil
  have hwritten : ([.state start, .symbol Symbol.epsilon].flatMap Edit.states).foldl insertNew
      (fa.states ++ fb.states) = fa.states ++ fb.states ++ [start] := insertNew_of_notMem hstart
  have hmarked : ([.initial (some start), .state accept].flatMap Edit.states).foldl insertNew
      (fa.states ++ fb.states ++ [start]) = fa.states ++ fb.states ++ [start] ++ [accept] := by
    show insertNew (insertNew _ start) accept = _
    have hmem : start ∈ fa.states ++ fb.states ++ [start] := by simp
    rw [insertNew_of_mem hmem, insertNew_of_notMem haccept]
  rw [states_joined, joinScript, List.flatMap_append, List.flatMap_append, List.flatMap_append,
    List.flatMap_append, List.flatMap_append, List.foldl_append, List.foldl_append,
    List.foldl_append, List.foldl_append, List.foldl_append, hfb.states_copyScript hboth, hwritten,
    foldl_insertNew_of_subset hinitials, hmarked, foldl_insertNew_of_subset hfinals]
  exact insertNew_of_mem (by simp)

omit h in
theorem symbols_joinScript :
    ((joinScript fa.initial fa.finals fb start accept).flatMap Edit.symbols).foldl insertNew
      fa.alphabet = (joined fa fb start accept).alphabet := by
  have hjoined : (joined fa fb start accept).alphabet =
      insertNew (fb.alphabet.foldl insertNew fa.alphabet) Symbol.epsilon := by
    show (fa.alphabet ++ fb.alphabet ++ [Symbol.epsilon]).eraseDups = _
    rw [← insertAll_eq_eraseDups, insertAll, List.foldl_append, List.foldl_append]
    have hleft : fa.alphabet.foldl insertNew [] = fa.alphabet :=
      insertAll_of_nodup hfa.alphabet_nodup
    rw [hleft]
    rfl
  rw [hjoined, joinScript]
  simp only [List.append_assoc]
  rw [List.flatMap_append, List.foldl_append, hfb.symbols_copyScript, List.flatMap_append,
    List.foldl_append]
  refine foldl_insertNew_of_subset fun s hs => mem_insertNew.2 (.inr ?_)
  -- the new states have transitions on the marker only
  obtain ⟨e, he, hs⟩ := List.mem_flatMap.1 hs
  simp only [List.mem_append, List.mem_map, List.mem_flatMap, List.mem_cons, List.not_mem_nil,
    or_false] at he
  rcases he with ⟨p, -, rfl⟩ | (rfl | rfl) | ⟨p, -, rfl | rfl⟩ | rfl
  · exact List.mem_singleton.1 hs
  · exact absurd hs List.not_mem_nil
  · exact absurd hs List.not_mem_nil
  · exact List.mem_singleton.1 hs
  · exact absurd hs List.not_mem_nil
  · exact absurd hs List.not_mem_nil

/-- **The script of a union writes the joined automata.** -/
theorem Apart.performAll_joinScript :
    (fa.withDeterminized false).performAll (joinScript fa.initial fa.finals fb start accept) =
      joined fa fb start accept := by
  have hleft := hfa.withDeterminized_false
  have hwritten := hleft.performAll rfl (joinScript fa.initial fa.finals fb start accept)
  refine hwritten.ext_views (hfa.joined hfb h) ?_ ?_ (fun q s r => ?_) (fun q s => ?_) ?_ ?_ ?_
  · rw [states_performAll]
    exact h.states_joinScript hfa hfb
  · rw [alphabet_performAll]
    exact (symbols_joinScript hfa hfb :)
  · rw [hleft.mem_targets_performAll rfl, hfb.transition_mem_joinScript,
      h.mem_targets_joined hfa hfb]
    rfl
  · rw [rejected_performAll, rejected_joined hfa]
    rfl
  · rw [initial_performAll, joinScript, List.foldl_append, List.foldl_append, List.foldl_append]
    show List.foldl Edit.start (some start) _ = some start
    exact Edit.foldl_start_eq_self (by simp) _
  · -- the old marks are taken away
    have hold : fa.finals.filter (· ∉ fa.finals ++ fb.finals) = [] := by
      rw [List.filter_eq_nil_iff]
      intro q hq
      simp [hq]
    rw [finals_performAll, joinScript, List.foldl_append, List.foldl_append]
    show insertNew (List.foldl Edit.marks (List.foldl Edit.marks fa.finals _) _) accept = [accept]
    rw [Edit.foldl_marks_unmark,
      Edit.foldl_marks_eq_self (by simp [copyScript]) (by simp [copyScript]), hold]
    rfl
  · rw [determinized_performAll]
    rfl

end Joined

/-- **The union in two collections is the running one.** -/
theorem WellFormed.split_union (hfa : fa.WellFormed) (hfb : fb.WellFormed) :
    fa.split.union fb = (fa.union fb).map Automaton.split := by
  let pool := LabelPool.excluding fb.states
  let rest := (pool.names fa.states).2
  unfold SplitAutomaton.union Automaton.union
  show (if bothDeterminized fa fb then _ else _) = _
  split
  · have hleft := hfa.renameWith pool
    have hjoined : ((fa.renameWith pool).1.withDeterminized false).performAll
        (joinScript (fa.renameWith pool).1.initial (fa.renameWith pool).1.finals fb rest.take.1
          rest.take.2.take.1) = _ := (apart_union fa fb).performAll_joinScript hleft hfb
    have hsplit := hleft.withDeterminized_false.split_performAll rfl
      (joinScript (fa.renameWith pool).1.initial (fa.renameWith pool).1.finals fb rest.take.1
        rest.take.2.take.1)
    rw [hjoined, split_withDeterminized, performAll_withDeterminized] at hsplit
    show Except.ok ((SplitAutomaton.performAll (fa.split.renameWith pool).1
      (joinScript (fa.split.renameWith pool).1.initial (fa.split.renameWith pool).1.finals fb
        rest.take.1 rest.take.2.take.1)).withDeterminized false) = _
    rw [← hfa.split_renameWith]
    exact congrArg Except.ok hsplit.symm
  · rfl

end Automaton

/-! ### Grammars -/

namespace Grammar

variable {g : Grammar} {q r : Label} {s : Symbol}

theorem alternativeEdit?_eq_some_iff {head : Symbol} {p : Production} {e : Edit} :
    alternativeEdit? head p = some e ↔ ∃ t r, e = .transition (Label.ofChar head) t r ∧
      (p = .terminal t ∧ r = Label.sentinel ∨ ∃ m, p = .step t m ∧ r = Label.ofChar m) := by
  cases p with
  | empty => simp [alternativeEdit?]
  | terminal t => simp [alternativeEdit?, eq_comm]
  | step t m => simp [alternativeEdit?, eq_comm]

/-- The transitions that are written are those of the alternatives. -/
theorem transition_mem_grammarScript : .transition q s r ∈ grammarScript g ↔
    ∃ e ∈ g.productions, ∃ p ∈ e.2, alternativeEdit? e.1 p = some (.transition q s r) := by
  unfold grammarScript
  split <;> simp

theorem unmark_notMem_grammarScript (q : Label) : .unmark q ∉ grammarScript g := by
  unfold grammarScript
  split <;> simp [alternativeEdit?_eq_some_iff]

/-- The sentinel is marked, and so is the start symbol if it derives the empty word. -/
theorem finals_grammarScript :
    (grammarScript g).flatMap Edit.finals = (Automaton.ofGrammar g).finals := by
  have halternatives : (g.productions.flatMap fun e =>
      e.2.filterMap (alternativeEdit? e.1)).flatMap Edit.finals = [] := by
    refine List.flatMap_eq_nil_iff.2 fun e he => ?_
    obtain ⟨rule, -, he⟩ := List.mem_flatMap.1 he
    obtain ⟨p, -, heq⟩ := List.mem_filterMap.1 he
    obtain ⟨t, r, rfl, -⟩ := alternativeEdit?_eq_some_iff.1 heq
    rfl
  rw [grammarScript, List.flatMap_append, List.flatMap_append, List.flatMap_append,
    List.flatMap_append, List.flatMap_append, Edit.flatMap_finals_symbol,
    Edit.flatMap_finals_state, halternatives, Automaton.ofGrammar]
  split <;> rfl

namespace Canonical

variable (h : g.Canonical)

include h

theorem transition_mem_grammarScript_iff :
    .transition q s r ∈ grammarScript g ↔ r ∈ (Automaton.ofGrammar g).targets q s := by
  rw [transition_mem_grammarScript]
  constructor
  · rintro ⟨e, he, p, hp, heq⟩
    have hn : e.1 ∈ g.nonterminals := mem_nonterminals.2 ⟨e, he, .inl rfl⟩
    -- a nonterminal has one entry, so that its alternatives stand in it
    have halternatives : g.alternatives e.1 = e.2 := by
      rw [alternatives, List.lookup_eq_some_of_mem h.heads_nodup he, Option.getD_some]
    obtain ⟨t, r', heq, hshape⟩ := alternativeEdit?_eq_some_iff.1 heq
    obtain ⟨rfl, rfl, rfl⟩ := Edit.transition.inj heq
    rw [h.mem_targets_ofGrammar hn, halternatives]
    rcases hshape with ⟨rfl, hr⟩ | ⟨m, rfl, hr⟩
    · exact .inl ⟨hp, hr⟩
    · exact .inr ⟨m, hp, hr⟩
  · intro hr
    rcases mem_states_ofGrammar.1 (Automaton.mem_states_of_mem_targets _ hr) with
      ⟨n, hn, rfl⟩ | rfl
    · rcases (h.mem_targets_ofGrammar hn).1 hr with ⟨hp, rfl⟩ | ⟨m, hp, rfl⟩
      · obtain ⟨alternatives, he, hp⟩ := mem_alternatives hp
        exact ⟨_, he, _, hp, rfl⟩
      · obtain ⟨alternatives, he, hp⟩ := mem_alternatives hp
        exact ⟨_, he, _, hp, rfl⟩
    · rw [h.targets_sentinel] at hr
      exact absurd hr (LabelSet.notMem_empty r)

/-- The states are written in their order, and the alternatives name no further ones. -/
theorem states_grammarScript :
    insertAll ((grammarScript g).flatMap Edit.states) = (Automaton.ofGrammar g).states := by
  have hsentinel : [Edit.final Label.sentinel].flatMap Edit.states = [Label.sentinel] := rfl
  have hstart : Label.ofChar g.start ∈ g.nonterminals.map Label.ofChar ++ [Label.sentinel] :=
    List.mem_append_left _ (List.mem_map.2 ⟨g.start, h.start_mem, rfl⟩)
  rw [states_ofGrammar, grammarScript]
  simp only [List.append_assoc]
  rw [List.flatMap_append, List.flatMap_append, List.flatMap_append, Edit.flatMap_states_symbol,
    Edit.flatMap_states_state, hsentinel, List.nil_append, ← List.append_assoc]
  refine insertAll_append_of_subset (states_ofGrammar g ▸ h.nodup_states) fun q hq => ?_
  obtain ⟨e, he, hq⟩ := List.mem_flatMap.1 hq
  simp only [List.mem_append, List.mem_flatMap, List.mem_filterMap, List.mem_singleton] at he
  rcases he with ⟨rule, hrule, p, hp, heq⟩ | rfl | he
  · obtain ⟨t, r, rfl, -⟩ := alternativeEdit?_eq_some_iff.1 heq
    have htarget := h.transition_mem_grammarScript_iff.1
      (transition_mem_grammarScript.2 ⟨rule, hrule, p, hp, heq⟩)
    rw [← states_ofGrammar]
    rcases List.mem_pair.1 hq with rfl | rfl
    · exact Automaton.mem_states_of_mem_targets _ htarget
    · exact h.mem_states_of_mem_targets htarget
  · rwa [List.mem_singleton.1 hq]
  · split at he
    · obtain rfl := List.mem_singleton.1 he
      rwa [List.mem_singleton.1 hq]
    · exact absurd he List.not_mem_nil

theorem symbols_grammarScript :
    insertAll ((grammarScript g).flatMap Edit.symbols) = (Automaton.ofGrammar g).alphabet := by
  rw [grammarScript]
  simp only [List.append_assoc]
  rw [List.flatMap_append, Edit.flatMap_symbols_symbol]
  refine insertAll_append_of_subset (List.nodup_eraseDups _) fun s hs => ?_
  obtain ⟨e, he, hs⟩ := List.mem_flatMap.1 hs
  simp only [List.mem_append, List.mem_map, List.mem_flatMap, List.mem_filterMap,
    List.mem_singleton] at he
  rcases he with ⟨n, -, rfl⟩ | rfl | ⟨rule, hrule, p, hp, heq⟩ | rfl | he
  · exact absurd hs List.not_mem_nil
  · exact absurd hs List.not_mem_nil
  · obtain ⟨t, r, rfl, -⟩ := alternativeEdit?_eq_some_iff.1 heq
    have htarget := h.transition_mem_grammarScript_iff.1
      (transition_mem_grammarScript.2 ⟨rule, hrule, p, hp, heq⟩)
    rw [List.mem_singleton.1 hs]
    exact h.wellFormed.symbol_mem htarget
  · exact absurd hs List.not_mem_nil
  · split at he
    · rw [List.mem_singleton.1 he] at hs
      exact absurd hs List.not_mem_nil
    · exact absurd he List.not_mem_nil

/-- **The script of a grammar writes its automaton.** -/
theorem performAll_grammarScript :
    Automaton.empty.performAll (grammarScript g) = Automaton.ofGrammar g := by
  have hwf := h.wellFormed
  have hwritten := Automaton.wellFormed_empty.performAll rfl (grammarScript g)
  refine hwritten.ext_views hwf ?_ ?_ (fun q s r => ?_) (fun q s => ?_) ?_ ?_ ?_
  · rw [Automaton.states_performAll]
    exact h.states_grammarScript
  · rw [Automaton.alphabet_performAll]
    exact h.symbols_grammarScript
  · rw [Automaton.mem_targets_empty_performAll, h.transition_mem_grammarScript_iff]
  · have hcells : ∀ e ∈ (Automaton.ofGrammar g).rows, e.1 = q → ∀ x ∈ e.2,
        x.2.rejected = none := by
      intro e he _ x hx
      rcases List.mem_append.1 he with he | he
      · obtain ⟨n, -, rfl⟩ := List.mem_map.1 he
        obtain ⟨t, -, rfl⟩ := List.mem_map.1 hx
        rfl
      · obtain ⟨n, -, rfl⟩ := List.mem_map.1 he
        obtain ⟨t, -, rfl⟩ := List.mem_map.1 hx
        rfl
    rw [Automaton.rejected_performAll]
    exact (Automaton.rejected_eq_none hcells).symm
  · rw [Automaton.initial_performAll, grammarScript, List.foldl_append, List.foldl_append]
    show List.foldl Edit.start (some (Label.ofChar g.start)) _ = some (Label.ofChar g.start)
    exact Edit.foldl_start_eq_self (by split <;> simp) _
  · rw [Automaton.finals_performAll, Edit.foldl_marks unmark_notMem_grammarScript,
      finals_grammarScript]
    exact insertAll_of_nodup hwf.finals_nodup
  · rw [Automaton.determinized_performAll]
    rfl

/-- **The automaton of a grammar in two collections is the running one.** -/
theorem split_ofGrammar : (Automaton.ofGrammar g).split = ofGrammar g := by
  have hsplit := Automaton.wellFormed_empty.split_performAll rfl (grammarScript g)
  rw [h.performAll_grammarScript] at hsplit
  exact hsplit

end Canonical

/-- So it is with drafts, whose text may be no grammar. -/
theorem split_ofDraft {draft : Draft} (h : ∀ g, draft.grammar? = some g → g.Canonical) :
    (Automaton.ofDraft draft).split = ofDraft draft := by
  unfold Automaton.ofDraft SplitAutomaton.ofDraft
  cases hg : draft.grammar? with
  | none => rfl
  | some g => exact (h g hg).split_ofGrammar

end Grammar

end FiniteState
