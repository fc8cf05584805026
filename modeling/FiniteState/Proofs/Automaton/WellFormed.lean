import FiniteState.Proofs.Automaton.Table

/-!
# Well-formed automata

A table can be ill formed in many ways: a label may name two rows, a row may lack
a cell, a cell may point to a label that names no state.  None of this happens to
the automata that the library builds, and the flag of a determinized machine is
never set on a machine with a choice.  This file states the invariant and shows
that every elementary operation keeps it.

## Main definitions

* `Automaton.Deterministic` — no cell has two targets, and no state moves without
  reading.
* `Automaton.WellFormed` — the invariant.

## Main results

* `WellFormed.isDeterministic_iff` — the check of determinism decides the
  statement.
* `WellFormed.keepStates`, `WellFormed.keepSymbols`, `WellFormed.relabel`,
  `WellFormed.insertState`, `WellFormed.insertSymbol`, `WellFormed.setTargets`,
  `WellFormed.rejectText`, `WellFormed.withMarks` — the operations keep it.
-/

namespace FiniteState.Automaton

/-- No cell has two targets, and no state moves without reading. -/
structure Deterministic (fa : Automaton) : Prop where
  /-- Two targets of a state on a symbol are the same. -/
  target_unique : ∀ {q s r r'}, r ∈ fa.targets q s → r' ∈ fa.targets q s → r = r'
  /-- No state moves without reading. -/
  not_silent : ∀ {q r}, r ∉ fa.targets q Symbol.epsilon

/-- **The invariant of the library**: the rows are the states, each has a cell per
symbol, every reference is to a state, and the flag is truthful. -/
structure WellFormed (fa : Automaton) : Prop where
  /-- No label names two states. -/
  states_nodup : fa.states.Nodup
  /-- No symbol has two columns. -/
  alphabet_nodup : fa.alphabet.Nodup
  /-- Every row has a cell per symbol, in the order of the alphabet. -/
  row_symbols : ∀ e ∈ fa.rows, e.2.map Prod.fst = fa.alphabet
  /-- Every target is a state. -/
  target_mem : ∀ {q s r}, r ∈ fa.targets q s → r ∈ fa.states
  /-- The initial state is a state. -/
  initial_mem : ∀ {q}, fa.initial = some q → q ∈ fa.states
  /-- The accepting states are states. -/
  final_mem : ∀ {q}, q ∈ fa.finals → q ∈ fa.states
  /-- No accepting state is listed twice. -/
  finals_nodup : fa.finals.Nodup
  /-- A machine flagged as determinized is deterministic. -/
  deterministic : fa.determinized = true → fa.Deterministic

variable {fa fb : Automaton} {q r : Label} {s : Symbol}

/-- A machine with fewer transitions than a deterministic one is deterministic. -/
theorem Deterministic.mono (h : fa.Deterministic)
    (hsub : ∀ {q s r}, r ∈ fb.targets q s → r ∈ fa.targets q s) : fb.Deterministic where
  target_unique hr hr' := h.target_unique (hsub hr) (hsub hr')
  not_silent hr := h.not_silent (hsub hr)

/-- In a deterministic automaton the least target is the only one. -/
theorem Deterministic.first?_eq_some (h : fa.Deterministic) :
    (fa.targets q s).first? = some r ↔ r ∈ fa.targets q s := by
  constructor
  · exact List.mem_of_mem_head?
  · intro hr
    cases hfirst : (fa.targets q s).first? with
    | none =>
      rw [LabelSet.first?, List.head?_eq_none_iff] at hfirst
      rw [LabelSet.mem_def, hfirst] at hr
      exact absurd hr List.not_mem_nil
    | some r' => rw [h.target_unique hr (List.mem_of_mem_head? hfirst)]

/-- A source of a transition of a renamed automaton is the name of a state. -/
theorem exists_of_mem_targets_relabel {f : Label → Label}
    (hinj : Set.InjOn f {q | q ∈ fa.states}) {p : Label} (hr : r ∈ (fa.relabel f).targets p s) :
    ∃ q ∈ fa.states, p = f q ∧ ∃ r' ∈ fa.targets q s, r = f r' := by
  have hp := mem_states_of_mem_targets _ hr
  rw [states_relabel] at hp
  obtain ⟨q, hq, rfl⟩ := List.mem_map.1 hp
  obtain ⟨r', hr', rfl⟩ := (fa.mem_targets_relabel hinj hq).1 hr
  exact ⟨q, hq, rfl, r', hr', rfl⟩

/-- A deterministic automaton is deterministic under other names. -/
theorem Deterministic.relabel (h : fa.Deterministic) {f : Label → Label}
    (hinj : Set.InjOn f {q | q ∈ fa.states}) : (fa.relabel f).Deterministic where
  target_unique hr hr' := by
    obtain ⟨q, hq, rfl, u, hu, rfl⟩ := exists_of_mem_targets_relabel hinj hr
    obtain ⟨v, hv, rfl⟩ := (fa.mem_targets_relabel hinj hq).1 hr'
    rw [h.target_unique hu hv]
  not_silent hr := by
    obtain ⟨q, -, -, u, hu, -⟩ := exists_of_mem_targets_relabel hinj hr
    exact h.not_silent hu

/-! ### Cells -/

theorem mem_cells {c : Cell} :
    (q, s, c) ∈ fa.cells ↔ ∃ row, (q, row) ∈ fa.rows ∧ (s, c) ∈ row := by
  simp [cells, List.mem_flatMap]

/-- A target stands in a cell. -/
theorem exists_cell_of_mem_targets (h : r ∈ fa.targets q s) :
    ∃ c, (q, s, c) ∈ fa.cells ∧ fa.targets q s = c.targets := by
  cases hrow : fa.row? q with
  | none =>
    rw [fa.targets_of_row_none hrow] at h
    exact absurd h (LabelSet.notMem_empty r)
  | some row =>
    have htargets : fa.targets q s = Row.targets row s := fa.targets_of_row hrow
    rw [htargets, Row.targets] at h
    cases hc : row.lookup s with
    | none =>
      rw [hc] at h
      exact absurd h (LabelSet.notMem_empty r)
    | some c =>
      have hcell : (q, s, c) ∈ fa.cells := mem_cells.2
        ⟨row, List.mem_of_lookup_eq_some hrow, List.mem_of_lookup_eq_some hc⟩
      refine ⟨c, hcell, ?_⟩
      rw [htargets, Row.targets, hc]
      rfl

namespace WellFormed

/-- Every row of a well-formed table can be looked up. -/
theorem row?_of_mem_rows (h : fa.WellFormed) {row : Row} (hrow : (q, row) ∈ fa.rows) :
    fa.row? q = some row :=
  List.lookup_eq_some_of_mem h.states_nodup hrow

theorem lookup_of_mem_row (h : fa.WellFormed) {row : Row} (hrow : (q, row) ∈ fa.rows) {c : Cell}
    (hcell : (s, c) ∈ row) : row.lookup s = some c := by
  refine List.lookup_eq_some_of_mem ?_ hcell
  rw [h.row_symbols _ hrow]
  exact h.alphabet_nodup

/-- So can every cell. -/
theorem targets_of_mem_cells (h : fa.WellFormed) {c : Cell} (hc : (q, s, c) ∈ fa.cells) :
    fa.targets q s = c.targets := by
  obtain ⟨row, hrow, hcell⟩ := mem_cells.1 hc
  rw [fa.targets_of_row (h.row?_of_mem_rows hrow), Row.targets, h.lookup_of_mem_row hrow hcell]
  rfl

/-- Only symbols of the alphabet lead anywhere. -/
theorem symbol_mem (h : fa.WellFormed) (hr : r ∈ fa.targets q s) : s ∈ fa.alphabet := by
  obtain ⟨c, hc, -⟩ := exists_cell_of_mem_targets hr
  obtain ⟨row, hrow, hcell⟩ := mem_cells.1 hc
  rw [← h.row_symbols _ hrow]
  exact List.mem_map.2 ⟨_, hcell, rfl⟩

theorem size_le_one_iff {S : LabelSet} : S.size ≤ 1 ↔ ∀ r ∈ S, ∀ r' ∈ S, r = r' := by
  have hnd := S.nodup_toList
  unfold LabelSet.size
  simp only [LabelSet.mem_def]
  rcases hS : S.toList with _ | ⟨a, _ | ⟨b, l⟩⟩
  · simp
  · simp
  · -- the list has no repetitions, so its first two members differ
    rw [hS] at hnd
    have hab : a ≠ b := by
      intro hab
      simp [hab] at hnd
    constructor
    · intro hlen
      simp at hlen
    · intro heq
      exact absurd (heq a (by simp) b (by simp)) hab

/-- **The check of determinism decides the statement.** -/
theorem isDeterministic_iff (h : fa.WellFormed) :
    fa.isDeterministic = true ↔ fa.Deterministic := by
  simp only [isDeterministic, List.all_eq_true, Bool.and_eq_true, decide_eq_true_eq,
    Bool.or_eq_true, Bool.not_eq_true', Prod.forall, Cell.isEmpty_iff]
  constructor
  · intro hall
    refine ⟨fun {q s r r'} hr hr' => ?_, fun {q r} hr => ?_⟩
    · obtain ⟨c, hc, htargets⟩ := exists_cell_of_mem_targets hr
      rw [htargets] at hr hr'
      exact size_le_one_iff.1 (hall q s c hc).1 r hr r' hr'
    · obtain ⟨c, hc, htargets⟩ := exists_cell_of_mem_targets hr
      rw [htargets] at hr
      rcases (hall q _ c hc).2 with hne | hempty
      · simp [Symbol.isEpsilon] at hne
      · exact LabelSet.ne_empty_of_mem hr hempty
  · intro hdet q s c hc
    have htargets := h.targets_of_mem_cells hc
    refine ⟨size_le_one_iff.2 fun r hr r' hr' => ?_, ?_⟩
    · rw [← htargets] at hr hr'
      exact hdet.target_unique hr hr'
    · -- a cell below the marker would hold a move without reading
      by_cases hs : Symbol.isEpsilon s = true
      · right
        obtain rfl := Symbol.isEpsilon_iff.1 hs
        refine LabelSet.ext fun r => ⟨fun hr => ?_, fun hr => absurd hr (LabelSet.notMem_empty r)⟩
        rw [← htargets] at hr
        exact absurd hr hdet.not_silent
      · left
        simpa using hs

end WellFormed

theorem wellFormed_empty : empty.WellFormed where
  states_nodup := .nil
  alphabet_nodup := .nil
  row_symbols := fun _ h => absurd h List.not_mem_nil
  target_mem := fun h => absurd (empty.mem_states_of_mem_targets h) List.not_mem_nil
  initial_mem := fun h => by cases h
  final_mem := fun h => absurd h List.not_mem_nil
  finals_nodup := .nil
  deterministic := fun h => by cases h

namespace WellFormed

/-! ### Restriction -/

theorem keepStates (h : fa.WellFormed) (p : Label → Bool) : (fa.keepStates p).WellFormed where
  states_nodup := by
    rw [states_keepStates]
    exact h.states_nodup.filter p
  alphabet_nodup := h.alphabet_nodup
  row_symbols e he := by
    obtain ⟨e', he', rfl⟩ := List.mem_map.1 he
    rw [alphabet_keepStates, ← h.row_symbols e' (List.mem_of_mem_filter he'), List.map_map]
    rfl
  target_mem hr := by
    rw [mem_targets_keepStates] at hr
    rw [states_keepStates]
    exact List.mem_filter.2 ⟨h.target_mem hr.2.2, hr.2.1⟩
  initial_mem hq := by
    rw [initial_keepStates, Option.filter_eq_some_iff] at hq
    rw [states_keepStates]
    exact List.mem_filter.2 ⟨h.initial_mem hq.1, hq.2⟩
  final_mem hq := by
    rw [finals_keepStates, List.mem_filter] at hq
    rw [states_keepStates]
    exact List.mem_filter.2 ⟨h.final_mem hq.1, hq.2⟩
  finals_nodup := h.finals_nodup.filter p
  deterministic hflag :=
    (h.deterministic hflag).mono fun hr => ((mem_targets_keepStates fa).1 hr).2.2

theorem keepSymbols (h : fa.WellFormed) (p : Symbol → Bool) : (fa.keepSymbols p).WellFormed where
  states_nodup := by
    rw [states_keepSymbols]
    exact h.states_nodup
  alphabet_nodup := h.alphabet_nodup.filter p
  row_symbols e he := by
    obtain ⟨e', he', rfl⟩ := List.mem_map.1 he
    rw [alphabet_keepSymbols, ← h.row_symbols e' he', List.filter_map]
    rfl
  target_mem hr := by
    rw [mem_targets_keepSymbols] at hr
    rw [states_keepSymbols]
    exact h.target_mem hr.2
  initial_mem hq := by
    rw [states_keepSymbols]
    exact h.initial_mem hq
  final_mem hq := by
    rw [states_keepSymbols]
    exact h.final_mem hq
  finals_nodup := h.finals_nodup
  deterministic hflag :=
    (h.deterministic hflag).mono fun hr => ((mem_targets_keepSymbols fa).1 hr).2

/-! ### Renaming -/

theorem relabel (h : fa.WellFormed) {f : Label → Label} (hinj : Set.InjOn f {q | q ∈ fa.states}) :
    (fa.relabel f).WellFormed where
  states_nodup := by
    rw [states_relabel]
    exact h.states_nodup.map_on fun x hx y hy hxy => hinj hx hy hxy
  alphabet_nodup := h.alphabet_nodup
  row_symbols e he := by
    obtain ⟨e', he', rfl⟩ := List.mem_map.1 he
    rw [alphabet_relabel, ← h.row_symbols e' he', List.map_map]
    rfl
  target_mem hr := by
    obtain ⟨q, -, rfl, r', hr', rfl⟩ := exists_of_mem_targets_relabel hinj hr
    rw [states_relabel]
    exact List.mem_map.2 ⟨r', h.target_mem hr', rfl⟩
  initial_mem hq := by
    rw [initial_relabel, Option.map_eq_some_iff] at hq
    obtain ⟨p, hp, rfl⟩ := hq
    rw [states_relabel]
    exact List.mem_map.2 ⟨p, h.initial_mem hp, rfl⟩
  final_mem hq := by
    rw [finals_relabel] at hq
    obtain ⟨p, hp, rfl⟩ := List.mem_map.1 hq
    rw [states_relabel]
    exact List.mem_map.2 ⟨p, h.final_mem hp, rfl⟩
  finals_nodup := h.finals_nodup.map_on fun x hx y hy hxy =>
    hinj (h.final_mem hx) (h.final_mem hy) hxy
  deterministic hflag := (h.deterministic hflag).relabel hinj

/-! ### Growth and change -/

theorem insertState (h : fa.WellFormed) (p : Label) : (fa.insertState p).WellFormed where
  states_nodup := by
    rw [states_insertState]
    split
    · exact h.states_nodup
    · rename_i hp
      rw [← List.concat_eq_append]
      exact h.states_nodup.concat hp
  alphabet_nodup := by
    rw [alphabet_insertState]
    exact h.alphabet_nodup
  row_symbols e he := by
    rw [alphabet_insertState]
    unfold Automaton.insertState at he
    split at he
    · exact h.row_symbols e he
    · rcases List.mem_append.1 he with he | he
      · exact h.row_symbols e he
      · obtain rfl := List.mem_singleton.1 he
        rw [List.map_map]
        exact List.map_id _
  target_mem hr := by
    rw [targets_insertState] at hr
    exact (mem_states_insertState fa).2 (.inr (h.target_mem hr))
  initial_mem hq := by
    rw [initial_insertState] at hq
    exact (mem_states_insertState fa).2 (.inr (h.initial_mem hq))
  final_mem hq := by
    rw [finals_insertState] at hq
    exact (mem_states_insertState fa).2 (.inr (h.final_mem hq))
  finals_nodup := by
    rw [finals_insertState]
    exact h.finals_nodup
  deterministic hflag := by
    rw [determinized_insertState] at hflag
    exact (h.deterministic hflag).mono fun hr => by rwa [targets_insertState] at hr

theorem insertSymbol (h : fa.WellFormed) (t : Symbol) : (fa.insertSymbol t).WellFormed where
  states_nodup := by
    rw [states_insertSymbol]
    exact h.states_nodup
  alphabet_nodup := by
    rw [alphabet_insertSymbol]
    split
    · exact h.alphabet_nodup
    · rename_i ht
      rw [← List.concat_eq_append]
      exact h.alphabet_nodup.concat ht
  row_symbols e he := by
    unfold Automaton.insertSymbol at he ⊢
    split
    · rename_i ht
      rw [if_pos ht] at he
      exact h.row_symbols e he
    · rename_i ht
      rw [if_neg ht] at he
      obtain ⟨e', he', rfl⟩ := List.mem_map.1 he
      rw [List.map_append, h.row_symbols e' he']
      rfl
  target_mem hr := by
    rw [targets_insertSymbol] at hr
    rw [states_insertSymbol]
    exact h.target_mem hr
  initial_mem hq := by
    rw [initial_insertSymbol] at hq
    rw [states_insertSymbol]
    exact h.initial_mem hq
  final_mem hq := by
    rw [finals_insertSymbol] at hq
    rw [states_insertSymbol]
    exact h.final_mem hq
  finals_nodup := by
    rw [finals_insertSymbol]
    exact h.finals_nodup
  deterministic hflag := by
    rw [determinized_insertSymbol] at hflag
    exact (h.deterministic hflag).mono fun hr => by rwa [targets_insertSymbol] at hr

/-- Other marks on existing states keep a table well formed. -/
theorem withMarks (h : fa.WellFormed) {initial : Option Label} {finals : List Label}
    (hinitial : ∀ q, initial = some q → q ∈ fa.states) (hfinals : ∀ q ∈ finals, q ∈ fa.states)
    (hnd : finals.Nodup) :
    WellFormed { fa with initial := initial, finals := finals } :=
  ⟨h.states_nodup, h.alphabet_nodup, h.row_symbols, h.target_mem, hinitial _, hfinals _, hnd,
    fun hflag => (h.deterministic hflag).mono id⟩

theorem withDeterminized_false (h : fa.WellFormed) : (fa.withDeterminized false).WellFormed :=
  ⟨h.states_nodup, h.alphabet_nodup, h.row_symbols, h.target_mem, h.initial_mem, h.final_mem,
    h.finals_nodup, fun hflag => by cases hflag⟩

/-- A change of a cell keeps a table well formed, if the new targets are states
and a deterministic machine is left alone. -/
theorem modifyCell (h : fa.WellFormed) {p : Label} {t : Symbol} {f : Cell → Cell}
    (hf : ∀ c, ∀ r ∈ (f c).targets, r ∈ c.targets ∨ r ∈ fa.states)
    (hflag : fa.determinized = true → ∀ c, (f c).targets = c.targets) :
    (fa.modifyCell p t f).WellFormed where
  states_nodup := by
    rw [states_modifyCell]
    exact h.states_nodup
  alphabet_nodup := h.alphabet_nodup
  row_symbols e he := by
    rw [rows_modifyCell] at he
    obtain ⟨e', he', rfl⟩ := List.mem_map.1 he
    refine Eq.trans ?_ (h.row_symbols e' he')
    show (if e'.1 = p then Row.modify e'.2 t f else e'.2).map Prod.fst = _
    split
    · rw [Row.modify, List.map_map]
      rfl
    · rfl
  target_mem {q s r} hr := by
    rw [states_modifyCell]
    rcases exists_of_mem_targets_modifyCell fa hr with hr | ⟨c, hc, hr⟩
    · exact h.target_mem hr
    · rcases hf c r hr with hr | hr
      · rw [← hc] at hr
        exact h.target_mem hr
      · exact hr
  initial_mem hq := by
    rw [states_modifyCell]
    exact h.initial_mem hq
  final_mem hq := by
    rw [states_modifyCell]
    exact h.final_mem hq
  finals_nodup := h.finals_nodup
  deterministic hdet := by
    -- every cell has the targets that it had
    refine (h.deterministic hdet).mono fun {q s r} hr => ?_
    rcases exists_of_mem_targets_modifyCell fa hr with hr | ⟨c, hc, hr⟩
    · exact hr
    · rwa [hflag hdet c, ← hc] at hr

/-! ### Edits -/

theorem foldl_insertState (h : fa.WellFormed) (ps : List Label) :
    (ps.foldl Automaton.insertState fa).WellFormed := by
  induction ps generalizing fa with
  | nil => exact h
  | cons p ps ih => exact ih (h.insertState p)

theorem mem_states_foldl_insertState {ps : List Label} :
    r ∈ (ps.foldl Automaton.insertState fa).states ↔ r ∈ ps ∨ r ∈ fa.states := by
  induction ps generalizing fa with
  | nil => simp
  | cons p ps ih =>
    rw [List.foldl_cons, ih, mem_states_insertState, List.mem_cons]
    tauto

theorem setTargets (h : fa.WellFormed) (q : Label) (s : Symbol) (targets : LabelSet) :
    (fa.setTargets q s targets).WellFormed := by
  -- the new targets are made states first, and the flag is dropped
  have hgrown := (h.foldl_insertState targets.toList).withDeterminized_false
  refine hgrown.modifyCell (p := q) (t := s) (f := fun _ => .ofTargets targets) ?_ ?_
  · intro c r hr
    exact .inr (mem_states_foldl_insertState.2 (.inl hr))
  · intro hflag
    cases hflag

theorem rejectText (h : fa.WellFormed) (q : Label) (s : Symbol) (text : String) :
    (fa.rejectText q s text).WellFormed :=
  h.modifyCell (fun _ _ hr => .inl hr) fun _ _ => rfl

theorem insertFinal (h : fa.WellFormed) (hq : q ∈ fa.states) : (fa.insertFinal q).WellFormed := by
  unfold Automaton.insertFinal
  split
  · exact h
  · rename_i hfinal
    have hq' : q ∉ fa.finals := fun hmem => hfinal (fa.isFinal_iff.2 hmem)
    have hnd : (fa.finals ++ [q]).Nodup := by
      rw [← List.concat_eq_append]
      exact h.finals_nodup.concat hq'
    refine h.withMarks (fun _ => h.initial_mem) (fun r hr => ?_) hnd
    rcases List.mem_append.1 hr with hr | hr
    · exact h.final_mem hr
    · rwa [List.mem_singleton.1 hr]

theorem removeFinal (h : fa.WellFormed) (q : Label) : (fa.removeFinal q).WellFormed :=
  h.withMarks (fun _ => h.initial_mem) (fun _ hr => h.final_mem (List.mem_of_mem_filter hr))
    (h.finals_nodup.filter _)

end WellFormed

end FiniteState.Automaton
