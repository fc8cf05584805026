import FiniteState.Proofs.Split.Obtainable

/-!
# The tables of the automata that can be obtained

The invariant is stated on lookups, as proofs need it.  For a user it says how the states and the
rows of an automaton look, row by row and cell by cell, after any run: after edits that
failed, after constructions and after renaming from any pool.

## Main definitions

* `SplitAutomaton.Representation` — the properties of the states, the rows and their cells.

## Main results

* `SplitAutomaton.Obtainable.representation` — **all automata that can be obtained have these
  properties**.
-/

namespace FiniteState.SplitAutomaton

/-- **The representation of an automaton**: its states and their rows and cells, the references to
states, the names and the flag. -/
structure Representation (a : SplitAutomaton) : Prop where
  /-- The rows are those of the states, in the same order. -/
  rows_states : a.transitions.map Prod.fst = a.states
  /-- No label names two states. -/
  states_nodup : a.states.Nodup
  /-- Each row has a cell per symbol, in the order of the alphabet. -/
  row_symbols : ∀ e ∈ a.transitions, e.2.map Prod.fst = a.alphabet
  /-- No symbol has two columns. -/
  alphabet_nodup : a.alphabet.Nodup
  /-- Every target in a cell is a state. -/
  target_mem : ∀ e ∈ a.transitions, ∀ x ∈ e.2, ∀ r ∈ x.2.targets, r ∈ a.states
  /-- Every accepting state is a state. -/
  final_mem : ∀ q ∈ a.finals, q ∈ a.states
  /-- No accepting state is listed twice. -/
  finals_nodup : a.finals.Nodup
  /-- The initial state is a state. -/
  initial_mem : ∀ q, a.initial = some q → q ∈ a.states
  /-- A label is an uppercase letter or the sentinel, and then uppercase letters, digits and
  sentinels. -/
  label : ∀ q ∈ a.states, q.Valid
  /-- A symbol is a terminal or the marker of the empty word. -/
  symbol : ∀ s ∈ a.alphabet, Symbol.isTerminal s = true ∨ s = Symbol.epsilon
  /-- In an automaton flagged as determinized no cell has two targets, and the cells of the
  marker have none. -/
  cell_of_determinized : a.determinized = true → ∀ e ∈ a.transitions, ∀ x ∈ e.2,
    x.2.targets.size ≤ 1 ∧ (x.1 = Symbol.epsilon → x.2.targets = ∅)

variable {a : SplitAutomaton}

theorem states_table (a : SplitAutomaton) : a.table.states = a.states := by
  show (a.states.map fun q => (q, (a.transitions.lookup q).getD [])).map Prod.fst = a.states
  rw [List.map_map]
  exact List.map_id _

/-- Where rows and states are in step, the invariant of what is read holds cell by cell. -/
theorem InStep.representation_of_table (hstep : a.InStep) (h : a.table.WellFormed)
    (hnamed : a.table.Named) : a.Representation := by
  have hstates := a.states_table
  have hnd : a.states.Nodup := hstates ▸ h.states_nodup
  have hrows : a.table.rows = a.transitions := hstep.rows_table hnd
  have hcells : ∀ e ∈ a.transitions, ∀ x ∈ e.2, (e.1, x.1, x.2) ∈ a.table.cells :=
    fun e he x hx => Automaton.mem_cells.2 ⟨e.2, hrows.symm ▸ he, hx⟩
  exact
    { rows_states := hstep
      states_nodup := hnd
      row_symbols := fun e he => h.row_symbols e (hrows.symm ▸ he)
      alphabet_nodup := h.alphabet_nodup
      target_mem := fun e he x hx r hr => by
        rw [← h.targets_of_mem_cells (hcells e he x hx)] at hr
        exact hstates ▸ h.target_mem hr
      final_mem := fun q hq => hstates ▸ h.final_mem hq
      finals_nodup := h.finals_nodup
      initial_mem := fun q hq => hstates ▸ h.initial_mem hq
      label := fun q hq => hnamed.label q (hstates.symm ▸ hq)
      symbol := fun s hs => Symbol.isTransitionSymbol_iff.1 (hnamed.symbol s hs)
      cell_of_determinized := fun hflag e he x hx => by
        -- the check of determinism goes through all cells
        have hcheck := h.isDeterministic_iff.2 (h.deterministic hflag)
        have hcell := List.all_eq_true.1 hcheck _ (hcells e he x hx)
        simp only [Bool.and_eq_true, decide_eq_true_eq, Bool.or_eq_true, Bool.not_eq_true',
          Cell.isEmpty_iff] at hcell
        refine ⟨hcell.1, fun hs => hcell.2.resolve_left ?_⟩
        simp [hs, Symbol.isEpsilon] }

/-- **All automata that can be obtained have these properties**, whatever the steps of the run
were, and the running program obtains them, too. -/
theorem Obtainable.representation (h : a.Obtainable) :
    a.Representation ∧ ∃ fa : Automaton, fa.Obtainable ∧ fa.split = a := by
  obtain ⟨fa, hfa, rfl⟩ := h.exists_split
  have htable := hfa.wellFormed.table_split
  exact ⟨h.inStep.representation_of_table (htable.symm ▸ hfa.wellFormed) (htable.symm ▸ hfa.named),
    fa, hfa, rfl⟩

/-- The automaton of `S -> aS | a` is determinized.  An edit of it fails, it is united with what it
was before, a state is deleted, and the others are renamed while the letter `A` is taken. -/
theorem representation_renamed :
    ∃ determinized a : SplitAutomaton,
      determinized = ((ofDraft (.ofText "S -> aS | a")).apply .determinize).automaton ∧
      a = ((((determinized.apply (.updateTransition "A" 'a' "A,,b")).automaton.apply
        (.union determinized.table)).automaton.apply (.deleteState "B")).automaton.renameWith
          (.excluding ["A"])).1 ∧
      a.Obtainable ∧ a.Representation ∧ ∃ fa : Automaton, fa.Obtainable ∧ fa.split = a := by
  -- only the union has another automaton as its operand
  have hdeterminized := (Obtainable.ofText "S -> aS | a").apply .determinize .empty nofun
  have hedited := hdeterminized.apply (.updateTransition "A" 'a' "A,,b") .empty nofun
  have hunited := hedited.apply (.union (SplitAutomaton.table _)) hdeterminized
    fun other hother => Option.some.inj hother
  have hdeleted := hunited.apply (.deleteState "B") .empty nofun
  have hrenamed := hdeleted.renameWith (.excluding ["A"])
  exact ⟨_, _, rfl, rfl, hrenamed, hrenamed.representation⟩

end FiniteState.SplitAutomaton
