import Mathlib.Data.Set.Function
import FiniteState.Automaton.Edit
import FiniteState.Proofs.List

/-!
# What each operation does to the table

An automaton is seen through its states, its alphabet, its marks and the targets
of a state on a symbol.  For every operation on tables this file says what it
does to these views, so that no later proof looks up a row or a cell.

## Main results

* `mem_targets_keepStates`, `mem_targets_keepSymbols` — restriction keeps the
  transitions that do not touch what is dropped.
* `mem_targets_relabel` — renaming moves the transitions along.
* `cell?_keepStates`, `cell?_keepSymbols`, `cell?_relabel` — what either of them makes of a cell,
  the text of a rejected edit included.
* `targets_insertState`, `targets_insertSymbol` — growth adds no transition.
* `targets_modifyCell` — a change of a cell shows in that cell alone.
* `lookup_tabulate` — the rows of a tabulated function.
-/

namespace FiniteState

theorem LabelSet.exists_mem_of_ne_empty {S : LabelSet} (h : S ≠ ∅) : ∃ l, l ∈ S := by
  by_contra! hnone
  exact h (LabelSet.ext fun l => iff_of_false (hnone l) (LabelSet.notMem_empty l))

theorem LabelSet.ne_empty_of_mem {S : LabelSet} {l : Label} (h : l ∈ S) : S ≠ ∅ := by
  rintro rfl
  exact LabelSet.notMem_empty l h

theorem Cell.isEmpty_iff {c : Cell} : c.isEmpty = true ↔ c.targets = ∅ := LabelSet.isEmpty_iff

namespace Row

/-- The targets of a row on a symbol; none where the row has no such cell. -/
def targets (row : Row) (s : Symbol) : LabelSet := ((row.lookup s).map Cell.targets).getD ∅

/-- The targets of a row that was filled by a function. -/
theorem targets_tabulated (alphabet : List Symbol) (cell : Symbol → Cell) (s : Symbol) :
    Row.targets (alphabet.map fun t => (t, cell t)) s =
      if s ∈ alphabet then (cell s).targets else ∅ := by
  rw [targets, List.lookup_tabulated]
  split <;> rfl

/-- The row after a change of the targets of all its cells. -/
def mapTargets (row : Row) (f : LabelSet → LabelSet) : Row :=
  row.map fun e => (e.1, e.2.mapTargets f)

theorem lookup_mapTargets (f : LabelSet → LabelSet) (row : Row) (s : Symbol) :
    (Row.mapTargets row f).lookup s = (row.lookup s).map (Cell.mapTargets f) :=
  List.lookup_map_values (fun _ c => Cell.mapTargets f c) row s

theorem targets_mapTargets {f : LabelSet → LabelSet} (hf : f ∅ = ∅) (row : Row) (s : Symbol) :
    Row.targets (Row.mapTargets row f) s = f (Row.targets row s) := by
  rw [targets, lookup_mapTargets, targets]
  cases row.lookup s with
  | none => exact hf.symm
  | some c => rfl

/-- The row after a change of one of its cells. -/
def modify (row : Row) (t : Symbol) (f : Cell → Cell) : Row :=
  row.map fun e => (e.1, if e.1 = t then f e.2 else e.2)

theorem lookup_modify (row : Row) (t : Symbol) (f : Cell → Cell) (s : Symbol) :
    (Row.modify row t f).lookup s = (row.lookup s).map fun c => if s = t then f c else c :=
  List.lookup_map_values (fun k c => if k = t then f c else c) row s

end Row

namespace Automaton

/-- A table is its symbols and rows, its marks and its flag. -/
theorem ext {fa fb : Automaton} (halphabet : fa.alphabet = fb.alphabet) (hrows : fa.rows = fb.rows)
    (hinitial : fa.initial = fb.initial) (hfinals : fa.finals = fb.finals)
    (hflag : fa.determinized = fb.determinized) : fa = fb :=
  (mk.injEq ..).mpr ⟨halphabet, hrows, hinitial, hfinals, hflag⟩

variable (fa : Automaton) {q r : Label} {s : Symbol}

/-! ### Views -/

theorem hasState_iff : fa.hasState q = true ↔ q ∈ fa.states := List.contains_iff_mem

theorem hasSymbol_iff : fa.hasSymbol s = true ↔ s ∈ fa.alphabet := List.contains_iff_mem

theorem isFinal_iff : fa.isFinal q = true ↔ q ∈ fa.finals := List.contains_iff_mem

theorem targets_eq : fa.targets q s = ((fa.row? q).map (Row.targets · s)).getD ∅ := by
  unfold targets cell?
  cases fa.row? q with
  | none => rfl
  | some row =>
    rw [Option.bind_some, Option.map_some, Option.getD_some, Row.targets]
    cases row.lookup s <;> rfl

theorem targets_of_row {row : Row} (h : fa.row? q = some row) :
    fa.targets q s = Row.targets row s := by
  rw [targets_eq, h, Option.map_some, Option.getD_some]

theorem targets_of_row_none (h : fa.row? q = none) : fa.targets q s = ∅ := by
  rw [targets_eq, h, Option.map_none, Option.getD_none]

theorem targets_of_cell {c : Cell} (h : fa.cell? q s = some c) : fa.targets q s = c.targets := by
  unfold targets
  rw [h]

theorem mem_states_of_row {row : Row} (h : fa.row? q = some row) : q ∈ fa.states :=
  List.mem_map.2 ⟨_, List.mem_of_lookup_eq_some h, rfl⟩

theorem row?_eq_none (h : q ∉ fa.states) : fa.row? q = none := by
  cases hrow : fa.row? q with
  | none => rfl
  | some row => exact absurd (fa.mem_states_of_row hrow) h

/-- Only states have targets. -/
theorem mem_states_of_mem_targets (h : r ∈ fa.targets q s) : q ∈ fa.states := by
  by_contra hq
  rw [fa.targets_of_row_none (fa.row?_eq_none hq)] at h
  exact LabelSet.notMem_empty r h

/-! ### Restriction -/

@[simp] theorem states_keepStates (p : Label → Bool) :
    (fa.keepStates p).states = fa.states.filter p := by
  unfold states keepStates
  rw [List.map_map, List.filter_map]
  rfl

@[simp] theorem alphabet_keepStates (p : Label → Bool) :
    (fa.keepStates p).alphabet = fa.alphabet := rfl

@[simp] theorem finals_keepStates (p : Label → Bool) :
    (fa.keepStates p).finals = fa.finals.filter p := rfl

@[simp] theorem initial_keepStates (p : Label → Bool) :
    (fa.keepStates p).initial = fa.initial.filter p := rfl

@[simp] theorem determinized_keepStates (p : Label → Bool) :
    (fa.keepStates p).determinized = fa.determinized := rfl

theorem row?_keepStates (p : Label → Bool) :
    (fa.keepStates p).row? q =
      if p q then (fa.row? q).map (Row.mapTargets · (.filter p)) else none := by
  have := List.lookup_map_values (fun _ row => Row.mapTargets row (.filter p))
    (fa.rows.filter fun e => p e.1) q
  rw [List.lookup_filter_keys] at this
  refine Eq.trans this ?_
  split <;> rfl

theorem cell?_keepStates (p : Label → Bool) :
    (fa.keepStates p).cell? q s =
      if p q then (fa.cell? q s).map (Cell.mapTargets (.filter p)) else none := by
  unfold cell?
  rw [row?_keepStates]
  split
  · cases fa.row? q with
    | none => rfl
    | some row => exact Row.lookup_mapTargets (.filter p) row s
  · rfl

@[simp] theorem mem_targets_keepStates {p : Label → Bool} :
    r ∈ (fa.keepStates p).targets q s ↔ p q = true ∧ p r = true ∧ r ∈ fa.targets q s := by
  have hrow := fa.row?_keepStates p (q := q)
  by_cases hq : p q = true
  · rw [if_pos hq] at hrow
    cases hold : fa.row? q with
    | none =>
      rw [hold, Option.map_none] at hrow
      rw [targets_of_row_none _ hrow, targets_of_row_none _ hold]
      simp
    | some row =>
      rw [hold, Option.map_some] at hrow
      rw [targets_of_row _ hrow, targets_of_row _ hold, Row.targets_mapTargets rfl,
        LabelSet.mem_filter]
      tauto
  · -- the row itself is dropped
    rw [if_neg hq] at hrow
    rw [targets_of_row_none _ hrow]
    simp [hq]

@[simp] theorem states_keepSymbols (p : Symbol → Bool) :
    (fa.keepSymbols p).states = fa.states := by
  unfold states keepSymbols
  rw [List.map_map]
  rfl

@[simp] theorem alphabet_keepSymbols (p : Symbol → Bool) :
    (fa.keepSymbols p).alphabet = fa.alphabet.filter p := rfl

@[simp] theorem finals_keepSymbols (p : Symbol → Bool) :
    (fa.keepSymbols p).finals = fa.finals := rfl

@[simp] theorem initial_keepSymbols (p : Symbol → Bool) :
    (fa.keepSymbols p).initial = fa.initial := rfl

@[simp] theorem determinized_keepSymbols (p : Symbol → Bool) :
    (fa.keepSymbols p).determinized = fa.determinized := rfl

theorem row?_keepSymbols (p : Symbol → Bool) :
    (fa.keepSymbols p).row? q = (fa.row? q).map (List.filter fun e => p e.1) :=
  List.lookup_map_values (fun _ (row : Row) => row.filter fun (e : Symbol × Cell) => p e.1)
    fa.rows q

theorem cell?_keepSymbols (p : Symbol → Bool) :
    (fa.keepSymbols p).cell? q s = if p s then fa.cell? q s else none := by
  unfold cell?
  rw [row?_keepSymbols]
  cases fa.row? q with
  | none => exact (ite_self none).symm
  | some row => exact List.lookup_filter_keys p row s

@[simp] theorem mem_targets_keepSymbols {p : Symbol → Bool} :
    r ∈ (fa.keepSymbols p).targets q s ↔ p s = true ∧ r ∈ fa.targets q s := by
  have hrow := fa.row?_keepSymbols p (q := q)
  cases hold : fa.row? q with
  | none =>
    rw [hold, Option.map_none] at hrow
    rw [targets_of_row_none _ hrow, targets_of_row_none _ hold]
    simp
  | some row =>
    rw [hold, Option.map_some] at hrow
    rw [targets_of_row _ hrow, targets_of_row _ hold, Row.targets, List.lookup_filter_keys,
      Row.targets]
    by_cases hs : p s = true
    · simp [hs]
    · simp [hs]

/-! ### Renaming -/

@[simp] theorem states_relabel (f : Label → Label) :
    (fa.relabel f).states = fa.states.map f := by
  unfold states relabel
  rw [List.map_map, List.map_map]
  rfl

@[simp] theorem alphabet_relabel (f : Label → Label) : (fa.relabel f).alphabet = fa.alphabet := rfl

@[simp] theorem finals_relabel (f : Label → Label) :
    (fa.relabel f).finals = fa.finals.map f := rfl

@[simp] theorem initial_relabel (f : Label → Label) :
    (fa.relabel f).initial = fa.initial.map f := rfl

@[simp] theorem determinized_relabel (f : Label → Label) :
    (fa.relabel f).determinized = fa.determinized := rfl

theorem rows_relabel (f : Label → Label) :
    (fa.relabel f).rows =
      (fa.rows.map fun e => (e.1, Row.mapTargets e.2 (.map f))).map fun e => (f e.1, e.2) := by
  rw [List.map_map]
  rfl

theorem row?_relabel {f : Label → Label} (hinj : Set.InjOn f {q | q ∈ fa.states})
    (hq : q ∈ fa.states) :
    (fa.relabel f).row? (f q) = (fa.row? q).map (Row.mapTargets · (.map f)) := by
  have hkeys : ∀ e ∈ fa.rows.map fun e => (e.1, Row.mapTargets e.2 (.map f)),
      f e.1 = f q → e.1 = q := by
    -- two rows of one new name had one name before
    intro e he hfe
    obtain ⟨e', he', rfl⟩ := List.mem_map.1 he
    exact hinj (List.mem_map.2 ⟨e', he', rfl⟩) hq hfe
  unfold row?
  rw [rows_relabel, List.lookup_map_keys hkeys]
  exact List.lookup_map_values (fun _ row => Row.mapTargets row (.map f)) fa.rows q

theorem cell?_relabel {f : Label → Label} (hinj : Set.InjOn f {q | q ∈ fa.states})
    (hq : q ∈ fa.states) :
    (fa.relabel f).cell? (f q) s = (fa.cell? q s).map (Cell.mapTargets (.map f)) := by
  unfold cell?
  rw [fa.row?_relabel hinj hq]
  cases fa.row? q with
  | none => rfl
  | some row => exact Row.lookup_mapTargets (.map f) row s

/-- **Renaming moves the transitions along**, when it keeps the states apart. -/
theorem mem_targets_relabel {f : Label → Label} (hinj : Set.InjOn f {q | q ∈ fa.states})
    (hq : q ∈ fa.states) :
    r ∈ (fa.relabel f).targets (f q) s ↔ ∃ r' ∈ fa.targets q s, f r' = r := by
  have hrow := fa.row?_relabel hinj hq
  cases hold : fa.row? q with
  | none =>
    rw [hold, Option.map_none] at hrow
    rw [targets_of_row_none _ hrow, targets_of_row_none _ hold]
    simp
  | some row =>
    rw [hold, Option.map_some] at hrow
    rw [targets_of_row _ hrow, targets_of_row _ hold, Row.targets_mapTargets rfl,
      LabelSet.mem_map]

/-! ### Growth and change -/

theorem states_insertState (q : Label) :
    (fa.insertState q).states = if q ∈ fa.states then fa.states else fa.states ++ [q] := by
  unfold insertState
  by_cases h : q ∈ fa.states
  · rw [if_pos (fa.hasState_iff.2 h), if_pos h]
  · rw [if_neg (fun hq => h (fa.hasState_iff.1 hq)), if_neg h]
    simp [states, tabulate]

@[simp] theorem alphabet_insertState (q : Label) : (fa.insertState q).alphabet = fa.alphabet := by
  unfold insertState
  split <;> rfl

@[simp] theorem initial_insertState (q : Label) : (fa.insertState q).initial = fa.initial := by
  unfold insertState
  split <;> rfl

@[simp] theorem finals_insertState (q : Label) : (fa.insertState q).finals = fa.finals := by
  unfold insertState
  split <;> rfl

@[simp] theorem determinized_insertState (q : Label) :
    (fa.insertState q).determinized = fa.determinized := by
  unfold insertState
  split <;> rfl

@[simp] theorem mem_states_insertState : r ∈ (fa.insertState q).states ↔ r = q ∨ r ∈ fa.states := by
  rw [states_insertState]
  split
  · rename_i hq
    exact ⟨.inr, fun h => h.elim (fun h => h ▸ hq) id⟩
  · rw [List.mem_append, List.mem_singleton]
    exact or_comm

theorem lookup_tabulate (alphabet : List Symbol) (states : List Label)
    (cell : Label → Symbol → Cell) (q : Label) :
    (tabulate alphabet states cell).lookup q =
      if q ∈ states then some (alphabet.map fun s => (s, cell q s)) else none :=
  List.lookup_tabulated (fun q => alphabet.map fun s => (s, cell q s)) states q

@[simp] theorem targets_insertState (p : Label) :
    (fa.insertState p).targets q s = fa.targets q s := by
  unfold insertState
  split
  · rfl
  · rw [targets_eq, targets_eq]
    unfold row?
    rw [List.lookup_append, lookup_tabulate]
    cases fa.rows.lookup q with
    | some row => rfl
    | none =>
      -- the row of a new state has only empty cells
      rw [Option.none_or]
      split
      · rw [Option.map_some, Option.getD_some, Row.targets_tabulated]
        exact ite_self _
      · rfl

@[simp] theorem states_insertSymbol (s : Symbol) : (fa.insertSymbol s).states = fa.states := by
  unfold insertSymbol
  split
  · rfl
  · unfold states
    rw [List.map_map]
    rfl

@[simp] theorem initial_insertSymbol (s : Symbol) : (fa.insertSymbol s).initial = fa.initial := by
  unfold insertSymbol
  split <;> rfl

@[simp] theorem finals_insertSymbol (s : Symbol) : (fa.insertSymbol s).finals = fa.finals := by
  unfold insertSymbol
  split <;> rfl

@[simp] theorem determinized_insertSymbol (s : Symbol) :
    (fa.insertSymbol s).determinized = fa.determinized := by
  unfold insertSymbol
  split <;> rfl

theorem alphabet_insertSymbol (s : Symbol) :
    (fa.insertSymbol s).alphabet = if s ∈ fa.alphabet then fa.alphabet else fa.alphabet ++ [s] := by
  unfold insertSymbol
  by_cases h : s ∈ fa.alphabet
  · rw [if_pos (fa.hasSymbol_iff.2 h), if_pos h]
  · rw [if_neg (fun hs => h (fa.hasSymbol_iff.1 hs)), if_neg h]

theorem mem_alphabet_insertSymbol {t : Symbol} :
    t ∈ (fa.insertSymbol s).alphabet ↔ t ∈ fa.alphabet ∨ t = s := by
  rw [alphabet_insertSymbol]
  split
  · rename_i hs
    exact ⟨.inl, fun ht => ht.elim id fun heq => heq ▸ hs⟩
  · rw [List.mem_append, List.mem_singleton]

@[simp] theorem targets_insertSymbol (t : Symbol) :
    (fa.insertSymbol t).targets q s = fa.targets q s := by
  unfold insertSymbol
  split
  · rfl
  · rw [targets_eq, targets_eq]
    unfold row?
    have hrow := List.lookup_map_values (fun _ row => row ++ [(t, Cell.empty)]) fa.rows q
    rw [hrow]
    cases fa.rows.lookup q with
    | none => rfl
    | some row =>
      rw [Option.map_some, Option.map_some, Option.getD_some, Option.map_some, Option.getD_some,
        Row.targets, List.lookup_append, Row.targets]
      cases row.lookup s with
      | some c => rfl
      | none =>
        -- the only other cell is the new one, which is empty
        rw [Option.none_or, List.lookup_cons]
        split <;> rfl

theorem rows_modifyCell (p : Label) (t : Symbol) (f : Cell → Cell) :
    (fa.modifyCell p t f).rows =
      fa.rows.map fun e => (e.1, if e.1 = p then Row.modify e.2 t f else e.2) := by
  refine List.map_congr_left fun e _ => ?_
  obtain ⟨k, row⟩ := e
  by_cases hk : k = p
  · have hrow : (row.map fun e => if e.1 = t then (e.1, f e.2) else (e.1, e.2)) =
        Row.modify row t f :=
      List.map_congr_left fun e _ => by split <;> rfl
    simp only [if_pos hk]
    exact congrArg _ hrow
  · simp only [if_neg hk]

theorem cell?_modifyCell (p : Label) (t : Symbol) (f : Cell → Cell) :
    (fa.modifyCell p t f).cell? q s =
      (fa.cell? q s).map fun c => if q = p ∧ s = t then f c else c := by
  have hrow : (fa.modifyCell p t f).row? q =
      (fa.row? q).map fun row => if q = p then Row.modify row t f else row := by
    unfold row?
    rw [rows_modifyCell]
    exact List.lookup_map_values (fun k row => if k = p then Row.modify row t f else row) fa.rows q
  unfold cell?
  rw [hrow]
  cases fa.row? q with
  | none => rfl
  | some row =>
    rw [Option.map_some, Option.bind_some, Option.bind_some]
    by_cases hq : q = p
    · rw [if_pos hq, Row.lookup_modify]
      simp [hq]
    · rw [if_neg hq]
      simp [hq]

/-- **A change of a cell shows in that cell alone.** -/
theorem targets_modifyCell (p : Label) (t : Symbol) (f : Cell → Cell) :
    (fa.modifyCell p t f).targets q s =
      if q = p ∧ s = t then ((fa.cell? q s).map fun c => (f c).targets).getD ∅
      else fa.targets q s := by
  unfold targets
  rw [cell?_modifyCell]
  by_cases h : q = p ∧ s = t
  · simp only [if_pos h]
    cases fa.cell? q s <;> rfl
  · simp only [if_neg h]
    cases fa.cell? q s <;> rfl

/-- A target after a change of a cell was one before, or it comes of a cell that was there. -/
theorem exists_of_mem_targets_modifyCell {p : Label} {t : Symbol} {f : Cell → Cell}
    (hr : r ∈ (fa.modifyCell p t f).targets q s) :
    r ∈ fa.targets q s ∨ ∃ c, fa.targets q s = c.targets ∧ r ∈ (f c).targets := by
  rw [targets_modifyCell] at hr
  split at hr
  · cases hc : fa.cell? q s with
    | none =>
      rw [hc] at hr
      exact absurd hr (LabelSet.notMem_empty r)
    | some c =>
      rw [hc] at hr
      exact .inr ⟨c, fa.targets_of_cell hc, hr⟩
  · exact .inl hr

@[simp] theorem states_modifyCell (p : Label) (t : Symbol) (f : Cell → Cell) :
    (fa.modifyCell p t f).states = fa.states := by
  unfold states
  rw [rows_modifyCell, List.map_map]
  rfl

end Automaton

end FiniteState
