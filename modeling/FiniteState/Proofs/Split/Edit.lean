import FiniteState.Proofs.Automaton.Same
import FiniteState.Proofs.Split.Embedding

/-!
# Scripts of edits

A construction writes its result: it inserts states and symbols, adds transitions and sets marks,
one edit after the other.  What has been written can be told from the edits.  The states are those
that the edits name, in the order in which they are first named; a state has the transitions that
were added and those that it had before; and no rejected text appears or goes away.  On
a well-formed table an edit does the same as it does on the table in two collections.

## Main definitions

* `Edit`, `SplitAutomaton.perform`, `SplitAutomaton.performAll` — edits of two collections.
* `Automaton.perform`, `Automaton.performAll` — the same edits of one list of rows.
* `Automaton.rejected` — the rejected text of a cell.

## Main results

* `SplitAutomaton.InStep.performAll` — **edits change both collections alike**.
* `WellFormed.mem_targets_performAll`, `states_performAll` and the others of this form — what
  a script has written.
* `WellFormed.split_performAll` — **a script does the same in two collections**.
* `WellFormed.ext_views` — a well-formed table is determined by its views.
-/

namespace FiniteState

/-- An edit of a table that is being written. -/
inductive Edit
  /-- A state is inserted. -/
  | state (q : Label)
  /-- A symbol is inserted. -/
  | symbol (s : Symbol)
  /-- A state is inserted and marked as accepting. -/
  | final (q : Label)
  /-- The mark of an accepting state is taken away. -/
  | unmark (q : Label)
  /-- A state is inserted and made the initial one, or none is. -/
  | initial (q? : Option Label)
  /-- A transition is added, with its states and its symbol. -/
  | transition (q : Label) (s : Symbol) (r : Label)
  deriving DecidableEq

namespace Edit

/-- The states that an edit inserts. -/
def states : Edit → List Label
  | .state q | .final q => [q]
  | .initial q? => q?.toList
  | .transition q _ r => [q, r]
  | .symbol _ | .unmark _ => []

/-- The symbols that an edit inserts. -/
def symbols : Edit → List Symbol
  | .symbol s | .transition _ s _ => [s]
  | .state _ | .final _ | .unmark _ | .initial _ => []

/-- The accepting states after an edit. -/
def marks (finals : List Label) : Edit → List Label
  | .final q => insertNew finals q
  | .unmark q => finals.filter (· != q)
  | .state _ | .symbol _ | .initial _ | .transition _ _ _ => finals

/-- The states that an edit marks as accepting. -/
def finals : Edit → List Label
  | .final q => [q]
  | .state _ | .symbol _ | .unmark _ | .initial _ | .transition _ _ _ => []

/-- The initial state after an edit. -/
def start (initial : Option Label) : Edit → Option Label
  | .initial q? => q?
  | .state _ | .symbol _ | .final _ | .unmark _ | .transition _ _ _ => initial

/-! ### What a script names -/

section Names

variable {α : Type}

theorem flatMap_states_symbol (ss : List Symbol) : (ss.map symbol).flatMap states = [] := by
  simp [List.flatMap_map, states]

theorem flatMap_symbols_symbol (ss : List Symbol) : (ss.map symbol).flatMap symbols = ss := by
  rw [List.flatMap_map]
  exact (List.flatMap_pure_eq_map id ss).trans (List.map_id _)

theorem flatMap_finals_symbol (ss : List Symbol) : (ss.map symbol).flatMap finals = [] := by
  simp [List.flatMap_map, finals]

theorem flatMap_states_state (f : α → Label) (l : List α) :
    (l.map fun x => state (f x)).flatMap states = l.map f := by
  rw [List.flatMap_map]
  exact List.flatMap_pure_eq_map f l

theorem flatMap_symbols_state (f : α → Label) (l : List α) :
    (l.map fun x => state (f x)).flatMap symbols = [] := by
  simp [List.flatMap_map, symbols]

theorem flatMap_finals_state (f : α → Label) (l : List α) :
    (l.map fun x => state (f x)).flatMap finals = [] := by
  simp [List.flatMap_map, finals]

end Names

/-! ### Marks and the initial state -/

/-- Where no mark is taken away, the marks are those that are set. -/
theorem foldl_marks {script : List Edit} (h : ∀ q, .unmark q ∉ script) (finals : List Label) :
    script.foldl marks finals = (script.flatMap Edit.finals).foldl insertNew finals := by
  induction script generalizing finals with
  | nil => rfl
  | cons e script ih =>
    have hrest : ∀ q, .unmark q ∉ script := fun q hq => h q (List.mem_cons_of_mem _ hq)
    rw [List.foldl_cons, ih hrest, List.flatMap_cons, List.foldl_append]
    cases e with
    | unmark q => exact absurd List.mem_cons_self (h q)
    | _ => rfl

theorem foldl_start_eq_self {script : List Edit} (h : ∀ q?, .initial q? ∉ script)
    (initial : Option Label) : script.foldl start initial = initial := by
  induction script with
  | nil => rfl
  | cons e script ih =>
    have hrest : ∀ q?, .initial q? ∉ script := fun q? hq => h q? (List.mem_cons_of_mem _ hq)
    rw [List.foldl_cons]
    cases e with
    | initial q? => exact absurd List.mem_cons_self (h q?)
    | _ => exact ih hrest

/-- Where marks are neither set nor taken away, they stay. -/
theorem foldl_marks_eq_self {script : List Edit} (hfinal : ∀ q, .final q ∉ script)
    (hunmark : ∀ q, .unmark q ∉ script) (finals : List Label) :
    script.foldl marks finals = finals := by
  have hnone : script.flatMap Edit.finals = [] := by
    refine List.flatMap_eq_nil_iff.2 fun e he => ?_
    cases e with
    | final q => exact absurd he (hfinal q)
    | _ => rfl
  rw [foldl_marks hunmark, hnone]
  rfl

/-- States that lose their marks are accepting no longer. -/
theorem foldl_marks_unmark (accept : Label) (qs finals : List Label) :
    (qs.flatMap fun q => [transition q Symbol.epsilon accept, .unmark q]).foldl marks finals =
      finals.filter (· ∉ qs) := by
  induction qs generalizing finals with
  | nil => simp
  | cons q qs ih =>
    rw [List.flatMap_cons, List.foldl_append, ih]
    show (finals.filter (· != q)).filter (· ∉ qs) = _
    rw [List.filter_filter]
    refine List.filter_congr fun p _ => ?_
    rw [Bool.eq_iff_iff]
    simp [and_comm]

end Edit

/-! ### Edits of two collections -/

namespace SplitAutomaton

/-- The automaton after an edit. -/
def perform (a : SplitAutomaton) : Edit → SplitAutomaton
  | .state q => a.insertState q
  | .symbol s => a.insertSymbol s
  | .final q => a.insertFinal q
  | .unmark q => a.removeFinal q
  | .initial q? => a.replaceInitial q?
  | .transition q s r => a.addTransition q s r

/-- The automaton after several edits. -/
def performAll (a : SplitAutomaton) (script : List Edit) : SplitAutomaton := script.foldl perform a

variable {a : SplitAutomaton}

theorem InStep.perform (h : a.InStep) (e : Edit) : (a.perform e).InStep := by
  cases e with
  | state q => exact h.insertState q
  | symbol s => exact h.insertSymbol s
  | final q => exact h.insertFinal q
  | unmark q => exact h.removeFinal q
  | initial q? => exact h.replaceInitial q?
  | transition q s r => exact h.addTransition q s r

/-- **Edits change both collections alike.** -/
theorem InStep.performAll (h : a.InStep) (script : List Edit) : (a.performAll script).InStep := by
  induction script generalizing a with
  | nil => exact h
  | cons e script ih => exact ih (h.perform e)

/-- The flag does not matter to an edit. -/
theorem perform_withDeterminized (a : SplitAutomaton) (flag : Bool) (e : Edit) :
    (a.withDeterminized flag).perform e = (a.perform e).withDeterminized flag := by
  have hstate (a : SplitAutomaton) (q : Label) :
      (a.withDeterminized flag).insertState q = (a.insertState q).withDeterminized flag := by
    by_cases hq : q ∈ a.states
    · rw [insertState_of_mem hq, insertState_of_mem (a := a.withDeterminized flag) hq]
    · rw [insertState_of_notMem hq, insertState_of_notMem (a := a.withDeterminized flag) hq]
      rfl
  have hsymbol (a : SplitAutomaton) (s : Symbol) :
      (a.withDeterminized flag).insertSymbol s = (a.insertSymbol s).withDeterminized flag := by
    by_cases hs : s ∈ a.alphabet
    · rw [insertSymbol_of_mem hs, insertSymbol_of_mem (a := a.withDeterminized flag) hs]
    · rw [insertSymbol_of_notMem hs, insertSymbol_of_notMem (a := a.withDeterminized flag) hs]
      rfl
  cases e with
  | state q => exact hstate a q
  | symbol s => exact hsymbol a s
  | final q =>
    show insertFinal _ q = _
    rw [insertFinal, hstate]
    rfl
  | unmark q => rfl
  | initial q? =>
    cases q? with
    | none => rfl
    | some q =>
      show { (a.withDeterminized flag).insertState q with initial := some q } = _
      rw [hstate]
      rfl
  | transition q s r =>
    show addTransition _ q s r = _
    rw [addTransition, hstate, hstate, hsymbol]
    rfl

theorem performAll_withDeterminized (a : SplitAutomaton) (flag : Bool) (script : List Edit) :
    (a.withDeterminized flag).performAll script =
      (a.performAll script).withDeterminized flag := by
  induction script generalizing a with
  | nil => rfl
  | cons e script ih =>
    show ((a.withDeterminized flag).perform e).performAll script = _
    rw [perform_withDeterminized, ih]
    rfl

end SplitAutomaton

/-! ### Edits of one list of rows -/

namespace Automaton

/-- The table after an edit. -/
def perform (fa : Automaton) : Edit → Automaton
  | .state q => fa.insertState q
  | .symbol s => fa.insertSymbol s
  | .final q => (fa.insertState q).insertFinal q
  | .unmark q => fa.removeFinal q
  | .initial none => { fa with initial := none }
  | .initial (some q) => { fa.insertState q with initial := some q }
  | .transition q s r =>
    (((fa.insertState q).insertState r).insertSymbol s).modifyCell q s (·.mapTargets (·.insert r))

/-- The table after several edits. -/
def performAll (fa : Automaton) (script : List Edit) : Automaton := script.foldl perform fa

/-- The rejected text of a cell, if there is one. -/
def rejected (fa : Automaton) (q : Label) (s : Symbol) : Option String :=
  (fa.cell? q s).bind Cell.rejected

variable {fa fb : Automaton} {p q r : Label} {s t : Symbol}

/-! ### Views -/

theorem states_insertState_eq (fa : Automaton) (q : Label) :
    (fa.insertState q).states = insertNew fa.states q := states_insertState fa q

theorem alphabet_insertSymbol_eq (fa : Automaton) (s : Symbol) :
    (fa.insertSymbol s).alphabet = insertNew fa.alphabet s := alphabet_insertSymbol fa s

/-- Marking a state changes nothing else. -/
theorem insertFinal_eq (fa : Automaton) (q : Label) :
    fa.insertFinal q = { fa with finals := insertNew fa.finals q } := by
  by_cases hq : q ∈ fa.finals
  · rw [insertNew_of_mem hq, insertFinal, if_pos (fa.isFinal_iff.2 hq)]
  · rw [insertNew_of_notMem hq, insertFinal, if_neg (mt fa.isFinal_iff.1 hq)]

theorem states_perform (fa : Automaton) (e : Edit) :
    (fa.perform e).states = e.states.foldl insertNew fa.states := by
  cases e with
  | state q => exact states_insertState_eq fa q
  | symbol s => exact states_insertSymbol fa s
  | final q =>
    show ((fa.insertState q).insertFinal q).states = _
    rw [insertFinal_eq]
    exact states_insertState_eq fa q
  | unmark q => rfl
  | initial q? =>
    cases q? with
    | none => rfl
    | some q => exact states_insertState_eq fa q
  | transition q s r =>
    show (modifyCell _ q s _).states = _
    rw [states_modifyCell, states_insertSymbol, states_insertState_eq, states_insertState_eq]
    rfl

theorem alphabet_perform (fa : Automaton) (e : Edit) :
    (fa.perform e).alphabet = e.symbols.foldl insertNew fa.alphabet := by
  cases e with
  | initial q? => cases q? <;> simp [perform, Edit.symbols]
  | _ => simp [perform, Edit.symbols, alphabet_insertSymbol_eq, insertFinal_eq, removeFinal,
      modifyCell]

theorem finals_perform (fa : Automaton) (e : Edit) :
    (fa.perform e).finals = e.marks fa.finals := by
  cases e with
  | initial q? => cases q? <;> simp [perform, Edit.marks]
  | _ => simp [perform, Edit.marks, insertFinal_eq, removeFinal, modifyCell]

theorem initial_perform (fa : Automaton) (e : Edit) :
    (fa.perform e).initial = e.start fa.initial := by
  cases e with
  | initial q? => cases q? <;> rfl
  | _ => simp [perform, Edit.start, insertFinal_eq, removeFinal, modifyCell]

theorem determinized_perform (fa : Automaton) (e : Edit) :
    (fa.perform e).determinized = fa.determinized := by
  cases e with
  | initial q? => cases q? <;> simp [perform]
  | _ => simp [perform, insertFinal_eq, removeFinal, modifyCell]

/-! ### Cells -/

theorem rejected_insertState (fa : Automaton) (p : Label) :
    (fa.insertState p).rejected q s = fa.rejected q s := by
  by_cases hp : p ∈ fa.states
  · rw [insertState, if_pos (fa.hasState_iff.2 hp)]
  · rw [insertState, if_neg (mt fa.hasState_iff.1 hp), rejected, rejected, cell?, cell?, row?,
      row?, List.lookup_append, lookup_tabulate]
    cases hrow : fa.rows.lookup q with
    | some row => rfl
    | none =>
      rw [Option.none_or]
      split
      · rw [Option.bind_some, List.lookup_tabulated]
        split <;> rfl
      · rfl

theorem rejected_insertSymbol (fa : Automaton) (t : Symbol) :
    (fa.insertSymbol t).rejected q s = fa.rejected q s := by
  by_cases ht : t ∈ fa.alphabet
  · rw [insertSymbol, if_pos (fa.hasSymbol_iff.2 ht)]
  · have hrow : (fa.insertSymbol t).row? q = (fa.row? q).map (· ++ [(t, Cell.empty)]) := by
      rw [insertSymbol, if_neg (mt fa.hasSymbol_iff.1 ht)]
      exact List.lookup_map_values (fun _ row => row ++ [(t, Cell.empty)]) fa.rows q
    rw [rejected, rejected, cell?, cell?, hrow]
    cases hold : fa.row? q with
    | none => rfl
    | some row =>
      rw [Option.map_some, Option.bind_some, Option.bind_some, List.lookup_append]
      cases hcell : row.lookup s with
      | some c => rfl
      | none =>
        rw [Option.none_or, List.lookup_cons]
        split <;> rfl

theorem rejected_modifyCell {f : Cell → Cell} (hf : ∀ c, (f c).rejected = c.rejected) :
    (fa.modifyCell p t f).rejected q s = fa.rejected q s := by
  rw [rejected, rejected, cell?_modifyCell]
  cases fa.cell? q s with
  | none => rfl
  | some c =>
    rw [Option.map_some, Option.bind_some, Option.bind_some]
    split
    · exact hf c
    · rfl

theorem rejected_perform (fa : Automaton) (e : Edit) :
    (fa.perform e).rejected q s = fa.rejected q s := by
  cases e with
  | state p => exact rejected_insertState fa p
  | symbol t => exact rejected_insertSymbol fa t
  | final p =>
    show ((fa.insertState p).insertFinal p).rejected q s = _
    rw [insertFinal_eq]
    exact rejected_insertState fa p
  | unmark p => rfl
  | initial q? =>
    cases q? with
    | none => rfl
    | some p => exact rejected_insertState fa p
  | transition p t r =>
    show (Automaton.modifyCell _ p t _).rejected q s = _
    rw [rejected_modifyCell fun _ => by rfl, rejected_insertSymbol, rejected_insertState,
      rejected_insertState]

/-- Where no cell of a state has a rejected text, none is found. -/
theorem rejected_eq_none (h : ∀ e ∈ fa.rows, e.1 = q → ∀ x ∈ e.2, x.2.rejected = none) :
    fa.rejected q s = none := by
  rw [rejected]
  cases hc : fa.cell? q s with
  | none => rfl
  | some c =>
    obtain ⟨row, hrow, hcell⟩ := cell?_eq_some_iff.1 hc
    exact h _ (List.mem_of_lookup_eq_some hrow) rfl _ (List.mem_of_lookup_eq_some hcell)

/-- A target that is put into a cell is one of its targets. -/
theorem WellFormed.mem_targets_insert (h : fa.WellFormed) (hp : p ∈ fa.states)
    (ht : t ∈ fa.alphabet) {r' : Label} :
    r ∈ (fa.modifyCell p t (·.mapTargets (·.insert r'))).targets q s ↔
      r ∈ fa.targets q s ∨ q = p ∧ s = t ∧ r = r' := by
  rw [targets_modifyCell]
  split
  · rename_i hcell
    obtain ⟨rfl, rfl⟩ := hcell
    obtain ⟨c, hc⟩ := h.exists_cell_iff.2 ⟨hp, ht⟩
    rw [hc, Option.map_some, Option.getD_some, fa.targets_of_cell hc, Cell.mapTargets,
      LabelSet.mem_insert]
    tauto
  · rename_i hcell
    rw [or_iff_left]
    rintro ⟨rfl, rfl, -⟩
    exact hcell ⟨rfl, rfl⟩

namespace WellFormed

variable (h : fa.WellFormed)

include h

theorem mem_targets_perform (e : Edit) :
    r ∈ (fa.perform e).targets q s ↔ r ∈ fa.targets q s ∨ .transition q s r = e := by
  cases e with
  | state p => simp [perform]
  | symbol t => simp [perform]
  | final p =>
    show r ∈ ((fa.insertState p).insertFinal p).targets q s ↔ _
    rw [insertFinal_eq]
    show r ∈ (fa.insertState p).targets q s ↔ _
    simp
  | unmark p =>
    show r ∈ fa.targets q s ↔ _
    simp
  | initial q? =>
    cases q? with
    | none =>
      show r ∈ fa.targets q s ↔ _
      simp
    | some p =>
      show r ∈ (fa.insertState p).targets q s ↔ _
      simp
  | transition p t r' =>
    have hgrown := ((h.insertState p).insertState r').insertSymbol t
    have hp : p ∈ (((fa.insertState p).insertState r').insertSymbol t).states := by
      simp
    have ht : t ∈ (((fa.insertState p).insertState r').insertSymbol t).alphabet :=
      (mem_alphabet_insertSymbol _).2 (.inr rfl)
    show r ∈ (Automaton.modifyCell _ p t _).targets q s ↔ _
    rw [hgrown.mem_targets_insert hp ht, targets_insertSymbol, targets_insertState,
      targets_insertState, Edit.transition.injEq]

/-- An edit keeps a table well formed that is not flagged. -/
theorem perform (hflag : fa.determinized = false) (e : Edit) : (fa.perform e).WellFormed := by
  cases e with
  | state q => exact h.insertState q
  | symbol s => exact h.insertSymbol s
  | final q => exact (h.insertState q).insertFinal (by simp)
  | unmark q => exact h.removeFinal q
  | initial q? =>
    cases q? with
    | none => exact h.withMarks (by simp) (fun _ => h.final_mem) h.finals_nodup
    | some q =>
      refine (h.insertState q).withMarks ?_ (fun _ => (h.insertState q).final_mem)
        (h.insertState q).finals_nodup
      rintro r hr
      simp [Option.some.inj hr]
  | transition q s r =>
    have hgrown := ((h.insertState q).insertState r).insertSymbol s
    refine hgrown.modifyCell (fun c r' hr' => ?_) fun hdet => ?_
    · rcases LabelSet.mem_insert.1 hr' with rfl | hr'
      · right
        simp
      · exact .inl hr'
    · have hkept := determinized_perform fa (.transition q s r)
      rw [hflag] at hkept
      exact absurd (hkept.symm.trans hdet) Bool.false_ne_true

/-- **An edit does the same in two collections.** -/
theorem split_perform (e : Edit) : (fa.perform e).split = fa.split.perform e := by
  cases e with
  | state q => exact split_insertState fa q
  | symbol s => exact h.split_insertSymbol s
  | final q =>
    show ((fa.insertState q).insertFinal q).split = fa.split.insertFinal q
    rw [insertFinal_eq, SplitAutomaton.insertFinal, ← split_insertState, finals_insertState]
    rfl
  | unmark q => exact h.split_removeFinal q
  | initial q? =>
    cases q? with
    | none => rfl
    | some q =>
      show _ = { fa.split.insertState q with initial := some q }
      rw [← split_insertState]
      rfl
  | transition q s r =>
    have hgrown := (h.insertState q).insertState r
    show (Automaton.modifyCell _ q s _).split = fa.split.addTransition q s r
    rw [split_modifyCell, hgrown.split_insertSymbol, split_insertState, split_insertState]
    rfl

end WellFormed

/-! ### Scripts -/

theorem performAll_cons (fa : Automaton) (e : Edit) (script : List Edit) :
    fa.performAll (e :: script) = (fa.perform e).performAll script := rfl

theorem performAll_append (fa : Automaton) (script script' : List Edit) :
    fa.performAll (script ++ script') = (fa.performAll script).performAll script' :=
  List.foldl_append

theorem states_performAll (fa : Automaton) (script : List Edit) :
    (fa.performAll script).states = (script.flatMap Edit.states).foldl insertNew fa.states := by
  induction script generalizing fa with
  | nil => rfl
  | cons e script ih =>
    rw [performAll_cons, ih, states_perform, List.flatMap_cons, List.foldl_append]

theorem alphabet_performAll (fa : Automaton) (script : List Edit) :
    (fa.performAll script).alphabet =
      (script.flatMap Edit.symbols).foldl insertNew fa.alphabet := by
  induction script generalizing fa with
  | nil => rfl
  | cons e script ih =>
    rw [performAll_cons, ih, alphabet_perform, List.flatMap_cons, List.foldl_append]

theorem finals_performAll (fa : Automaton) (script : List Edit) :
    (fa.performAll script).finals = script.foldl Edit.marks fa.finals := by
  induction script generalizing fa with
  | nil => rfl
  | cons e script ih => rw [performAll_cons, ih, finals_perform, List.foldl_cons]

theorem initial_performAll (fa : Automaton) (script : List Edit) :
    (fa.performAll script).initial = script.foldl Edit.start fa.initial := by
  induction script generalizing fa with
  | nil => rfl
  | cons e script ih => rw [performAll_cons, ih, initial_perform, List.foldl_cons]

theorem determinized_performAll (fa : Automaton) (script : List Edit) :
    (fa.performAll script).determinized = fa.determinized := by
  induction script generalizing fa with
  | nil => rfl
  | cons e script ih => rw [performAll_cons, ih, determinized_perform]

theorem rejected_performAll (fa : Automaton) (script : List Edit) :
    (fa.performAll script).rejected q s = fa.rejected q s := by
  induction script generalizing fa with
  | nil => rfl
  | cons e script ih => rw [performAll_cons, ih, rejected_perform]

namespace WellFormed

variable (h : fa.WellFormed) (hflag : fa.determinized = false)

include h hflag

theorem performAll (script : List Edit) : (fa.performAll script).WellFormed := by
  induction script generalizing fa with
  | nil => exact h
  | cons e script ih => exact ih (h.perform hflag e) ((determinized_perform fa e).trans hflag)

/-- **The transitions are those that were there and those that were added.** -/
theorem mem_targets_performAll (script : List Edit) : r ∈ (fa.performAll script).targets q s ↔
    r ∈ fa.targets q s ∨ .transition q s r ∈ script := by
  induction script generalizing fa with
  | nil => simp [Automaton.performAll]
  | cons e script ih =>
    rw [performAll_cons, ih (h.perform hflag e) ((determinized_perform fa e).trans hflag),
      h.mem_targets_perform, List.mem_cons, or_assoc]

/-- **A script does the same in two collections.** -/
theorem split_performAll (script : List Edit) :
    (fa.performAll script).split = fa.split.performAll script := by
  induction script generalizing fa with
  | nil => rfl
  | cons e script ih =>
    rw [performAll_cons, ih (h.perform hflag e) ((determinized_perform fa e).trans hflag),
      h.split_perform]
    rfl

end WellFormed

/-- On an empty table only the transitions are found that were added. -/
theorem mem_targets_empty_performAll (script : List Edit) :
    r ∈ (empty.performAll script).targets q s ↔ .transition q s r ∈ script :=
  (wellFormed_empty.mem_targets_performAll rfl script).trans
    (or_iff_right (LabelSet.notMem_empty r))

/-! ### Tables and their views -/

namespace WellFormed

theorem rows_eq (h : fa.WellFormed) : fa.rows = fa.states.map fun q =>
    (q, fa.alphabet.map fun s => (s, ⟨fa.targets q s, fa.rejected q s⟩)) := by
  have hrow : ∀ e ∈ fa.rows,
      (e.1, fa.alphabet.map fun s => (s, Cell.mk (fa.targets e.1 s) (fa.rejected e.1 s))) = e := by
    intro e he
    have hcell : ∀ x ∈ e.2,
        (x.1, Cell.mk (fa.targets e.1 x.1) (fa.rejected e.1 x.1)) = x := by
      intro x hx
      have hc : fa.cell? e.1 x.1 = some x.2 :=
        cell?_eq_some_iff.2 ⟨e.2, h.row?_of_mem_rows he, h.lookup_of_mem_row he hx⟩
      rw [fa.targets_of_cell hc, rejected, hc]
      rfl
    rw [← h.row_symbols e he, List.map_map]
    exact congrArg (Prod.mk e.1) ((List.map_congr_left hcell).trans (List.map_id _))
  rw [states, List.map_map]
  exact ((List.map_congr_left hrow).trans (List.map_id _)).symm

/-- **A well-formed table is determined by its views.** -/
theorem ext_views (hfa : fa.WellFormed) (hfb : fb.WellFormed) (hstates : fa.states = fb.states)
    (halphabet : fa.alphabet = fb.alphabet)
    (htargets : ∀ q s r, r ∈ fa.targets q s ↔ r ∈ fb.targets q s)
    (hrejected : ∀ q s, fa.rejected q s = fb.rejected q s) (hinitial : fa.initial = fb.initial)
    (hfinals : fa.finals = fb.finals) (hflag : fa.determinized = fb.determinized) : fa = fb := by
  have hsets : fa.targets = fb.targets :=
    funext fun q => funext fun s => LabelSet.ext (htargets q s)
  have htexts : fa.rejected = fb.rejected := funext fun q => funext (hrejected q)
  have hrows : fa.rows = fb.rows := by
    rw [hfa.rows_eq, hfb.rows_eq, hstates, halphabet, hsets, htexts]
  exact ext halphabet hrows hinitial hfinals hflag

end WellFormed

end Automaton

end FiniteState
