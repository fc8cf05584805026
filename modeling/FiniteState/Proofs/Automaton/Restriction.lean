import FiniteState.Automaton.Edit
import FiniteState.Proofs.Automaton.Trim

/-!
# Restricting a table

Trimming restricts a table to some of its states and symbols.  Restrictions can be done one
after the other or at once, and rows and columns can be dropped in either order.  What a
restriction leaves of a well-formed table depends only on which of its own states and symbols
pass the test, since every reference in it is to one of its states.  So a restriction that
drops several states is the same as deleting them one at a time, and the order in which
unreached states, useless states and unused symbols are removed does not matter: what is left in
the end are the states of both kinds and the symbols in use between them.

## Main definitions

* `Automaton.coreTable` — the table of the states that are reached and useful.

## Main results

* `keepStates_keepStates`, `keepSymbols_keepSymbols`, `keepStates_keepSymbols` — restrictions one
  after the other.
* `WellFormed.keepStates_congr`, `WellFormed.keepSymbols_congr` — only the tests of the own states
  and symbols count; `WellFormed.keepStates_eq_self`, `WellFormed.keepSymbols_eq_self` are the
  cases in which all pass.
* `WellFormed.keepStates_eq_foldl`, `WellFormed.keepSymbols_eq_foldl` — **a restriction deletes
  what does not pass, one after the other**.
* `WellFormed.live_eq_prune` — **unreached and useless states can be removed in either order**,
  when the unused symbols are removed after both.
-/

namespace FiniteState

/-! ### Sets and rows -/

namespace LabelSet

variable {p k : Label → Bool} {S : LabelSet}

theorem filter_congr (h : ∀ l ∈ S, p l = k l) : S.filter p = S.filter k := by
  refine ext fun l => ?_
  rw [mem_filter, mem_filter]
  exact and_congr_right fun hl => by rw [h l hl]

theorem filter_filter (p k : Label → Bool) (S : LabelSet) :
    (S.filter p).filter k = S.filter fun l => k l && p l := by
  refine ext fun l => ?_
  simp only [mem_filter, Bool.and_eq_true, and_assoc, and_comm (a := p l = true)]

theorem filter_true (S : LabelSet) : S.filter (fun _ => true) = S :=
  ext fun _ => mem_filter.trans (and_iff_left rfl)

end LabelSet

namespace Row

theorem mapTargets_congr {f g : LabelSet → LabelSet} {row : Row}
    (h : ∀ e ∈ row, f e.2.targets = g e.2.targets) : Row.mapTargets row f = Row.mapTargets row g :=
  List.map_congr_left fun e he => by rw [Cell.mapTargets, Cell.mapTargets, h e he]

theorem mapTargets_mapTargets (row : Row) (f g : LabelSet → LabelSet) :
    Row.mapTargets (Row.mapTargets row f) g = Row.mapTargets row fun S => g (f S) :=
  List.map_map

theorem mapTargets_id (row : Row) : Row.mapTargets row (fun S => S) = row := List.map_id row

/-- Columns are dropped before or after the cells are changed. -/
theorem filter_mapTargets (row : Row) (k : Symbol → Bool) (f : LabelSet → LabelSet) :
    (Row.mapTargets row f).filter (fun e => k e.1) =
      Row.mapTargets (row.filter fun e => k e.1) f :=
  List.filter_map

end Row

namespace Automaton

variable {fa : Automaton}

theorem rows_keepStates (fa : Automaton) (p : Label → Bool) : (fa.keepStates p).rows =
    (fa.rows.filter fun e => p e.1).map fun e => (e.1, Row.mapTargets e.2 (.filter p)) := rfl

theorem rows_keepSymbols (fa : Automaton) (k : Symbol → Bool) : (fa.keepSymbols k).rows =
    fa.rows.map fun e => (e.1, e.2.filter fun x => k x.1) := rfl

/-! ### One restriction after the other -/

theorem keepStates_keepStates (fa : Automaton) (p k : Label → Bool) :
    (fa.keepStates p).keepStates k = fa.keepStates fun q => k q && p q := by
  have hrows : ((fa.keepStates p).keepStates k).rows =
      (fa.keepStates fun q => k q && p q).rows := by
    simp only [rows_keepStates, List.filter_map, List.map_map, List.filter_filter]
    refine List.map_congr_left fun e _ => congrArg (Prod.mk e.1) ?_
    rw [Row.mapTargets_mapTargets]
    exact Row.mapTargets_congr fun x _ => LabelSet.filter_filter p k x.2.targets
  have hinitial : (fa.initial.filter p).filter k = fa.initial.filter fun q => k q && p q := by
    simp only [Option.filter_filter, Bool.and_comm]
  exact ext rfl hrows hinitial List.filter_filter rfl

theorem keepSymbols_keepSymbols (fa : Automaton) (p k : Symbol → Bool) :
    (fa.keepSymbols p).keepSymbols k = fa.keepSymbols fun s => k s && p s := by
  have hrows : ((fa.keepSymbols p).keepSymbols k).rows =
      (fa.keepSymbols fun s => k s && p s).rows := by
    simp only [rows_keepSymbols, List.map_map]
    exact List.map_congr_left fun e _ => congrArg (Prod.mk e.1) List.filter_filter
  exact ext List.filter_filter hrows rfl rfl rfl

/-- Rows and columns are dropped in either order. -/
theorem keepStates_keepSymbols (fa : Automaton) (p : Label → Bool) (k : Symbol → Bool) :
    (fa.keepSymbols k).keepStates p = (fa.keepStates p).keepSymbols k := by
  have hrows : ((fa.keepSymbols k).keepStates p).rows = ((fa.keepStates p).keepSymbols k).rows := by
    simp only [rows_keepStates, rows_keepSymbols, List.filter_map, List.map_map]
    refine List.map_congr_left fun e _ => congrArg (Prod.mk e.1) ?_
    exact (Row.filter_mapTargets e.2 k (.filter p)).symm
  exact ext rfl hrows rfl rfl rfl

theorem keepStates_true (fa : Automaton) : fa.keepStates (fun _ => true) = fa := by
  have hrows : (fa.keepStates fun _ => true).rows = fa.rows := by
    rw [rows_keepStates, List.filter_true]
    refine (List.map_congr_left fun e _ => ?_).trans (List.map_id _)
    exact congrArg (Prod.mk e.1)
      ((Row.mapTargets_congr fun x _ => LabelSet.filter_true _).trans (Row.mapTargets_id e.2))
  have hinitial : fa.initial.filter (fun _ => true) = fa.initial := by
    cases fa.initial <;> rfl
  exact ext rfl hrows hinitial (List.filter_true _) rfl

theorem keepSymbols_true (fa : Automaton) : fa.keepSymbols (fun _ => true) = fa := by
  have hrows : (fa.keepSymbols fun _ => true).rows = fa.rows := by
    rw [rows_keepSymbols]
    refine (List.map_congr_left fun e _ => ?_).trans (List.map_id _)
    rw [List.filter_true]
    rfl
  exact ext (List.filter_true _) hrows rfl rfl rfl

/-! ### What a restriction depends on -/

namespace WellFormed

variable (h : fa.WellFormed)

include h

theorem target_mem_of_mem_rows {e : Label × Row} (he : e ∈ fa.rows) {x : Symbol × Cell}
    (hx : x ∈ e.2) {r : Label} (hr : r ∈ x.2.targets) : r ∈ fa.states := by
  rw [← h.targets_of_mem_cells (mem_cells.2 ⟨e.2, he, hx⟩)] at hr
  exact h.target_mem hr

/-- Only the tests of the own states count. -/
theorem keepStates_congr {p k : Label → Bool} (hpk : ∀ q ∈ fa.states, p q = k q) :
    fa.keepStates p = fa.keepStates k := by
  have hrows : (fa.keepStates p).rows = (fa.keepStates k).rows := by
    have hkept : (fa.rows.filter fun e => p e.1) = fa.rows.filter fun e => k e.1 :=
      List.filter_congr fun e he => hpk e.1 (List.mem_map.2 ⟨e, he, rfl⟩)
    rw [rows_keepStates, rows_keepStates, hkept]
    refine List.map_congr_left fun e he => congrArg (Prod.mk e.1) ?_
    refine Row.mapTargets_congr fun x hx => LabelSet.filter_congr fun r hr => ?_
    exact hpk r (h.target_mem_of_mem_rows (List.mem_of_mem_filter he) hx hr)
  have hfinals : fa.finals.filter p = fa.finals.filter k :=
    List.filter_congr fun q hq => hpk q (h.final_mem hq)
  have hinitial : fa.initial.filter p = fa.initial.filter k := by
    refine Option.ext fun q => ?_
    rw [Option.filter_eq_some_iff, Option.filter_eq_some_iff]
    exact and_congr_right fun hq => by rw [hpk q (h.initial_mem hq)]
  exact ext rfl hrows hinitial hfinals rfl

/-- Only the tests of the own symbols count. -/
theorem keepSymbols_congr {p k : Symbol → Bool} (hpk : ∀ s ∈ fa.alphabet, p s = k s) :
    fa.keepSymbols p = fa.keepSymbols k := by
  have hrows : (fa.keepSymbols p).rows = (fa.keepSymbols k).rows := by
    refine List.map_congr_left fun e he => congrArg (Prod.mk e.1) ?_
    refine List.filter_congr fun x hx => hpk x.1 ?_
    rw [← h.row_symbols e he]
    exact List.mem_map.2 ⟨x, hx, rfl⟩
  exact ext (List.filter_congr hpk) hrows rfl rfl rfl

/-- Where all states pass the test, none is dropped. -/
theorem keepStates_eq_self {p : Label → Bool} (hp : ∀ q ∈ fa.states, p q = true) :
    fa.keepStates p = fa :=
  (h.keepStates_congr hp).trans (keepStates_true fa)

/-- Where all symbols pass the test, none is dropped. -/
theorem keepSymbols_eq_self {k : Symbol → Bool} (hk : ∀ s ∈ fa.alphabet, k s = true) :
    fa.keepSymbols k = fa :=
  (h.keepSymbols_congr hk).trans (keepSymbols_true fa)

end WellFormed

/-! ### One at a time -/

theorem foldl_deleteState (fa : Automaton) (qs : List Label) :
    qs.foldl deleteState fa = fa.keepStates fun q => !qs.contains q := by
  induction qs generalizing fa with
  | nil => exact (keepStates_true fa).symm
  | cons p qs ih =>
    rw [List.foldl_cons, ih, deleteState, keepStates_keepStates]
    congr 1
    funext q
    rw [List.contains_cons, Bool.not_or, Bool.and_comm]
    rfl

theorem foldl_deleteSymbol (fa : Automaton) (ss : List Symbol) :
    ss.foldl deleteSymbol fa = fa.keepSymbols fun s => !ss.contains s := by
  induction ss generalizing fa with
  | nil => exact (keepSymbols_true fa).symm
  | cons t ss ih =>
    rw [List.foldl_cons, ih, deleteSymbol, keepSymbols_keepSymbols]
    congr 1
    funext s
    rw [List.contains_cons, Bool.not_or, Bool.and_comm]
    rfl

namespace WellFormed

variable (h : fa.WellFormed)

include h

/-- **A restriction to some states deletes the others, one after the other.** -/
theorem keepStates_eq_foldl (p : Label → Bool) :
    fa.keepStates p = (fa.states.filter fun q => !p q).foldl deleteState fa := by
  rw [foldl_deleteState]
  refine h.keepStates_congr fun q hq => ?_
  simp [List.mem_filter, hq]

/-- **A restriction to some symbols deletes the others, one after the other.** -/
theorem keepSymbols_eq_foldl (k : Symbol → Bool) :
    fa.keepSymbols k = (fa.alphabet.filter fun s => !k s).foldl deleteSymbol fa := by
  rw [foldl_deleteSymbol]
  refine h.keepSymbols_congr fun s hs => ?_
  simp [List.mem_filter, hs]

end WellFormed

/-! ### The order of trimming -/

/-- The table of the states that are reached and useful. -/
def coreTable (fa : Automaton) : Automaton :=
  fa.keepStates fun q => fa.reachableFromInitial.contains q && fa.coreachable.contains q

namespace WellFormed

variable (h : fa.WellFormed)

include h

/-- Pruning does not see whether unused symbols were removed before. -/
theorem pruneUnusedSymbols_keepSymbols {k : Symbol → Bool}
    (hk : ∀ q s r, r ∈ fa.targets q s → k s = true) :
    (fa.keepSymbols k).pruneUnusedSymbols = fa.pruneUnusedSymbols := by
  rw [Automaton.pruneUnusedSymbols, keepSymbols_keepSymbols]
  refine h.keepSymbols_congr fun s _ => ?_
  rw [Bool.eq_iff_iff, Bool.and_eq_true, (h.keepSymbols k).usesSymbol_iff, h.usesSymbol_iff]
  simp only [mem_targets_keepSymbols]
  constructor
  · rintro ⟨⟨q, r, -, hr⟩, -⟩
    exact ⟨q, r, hr⟩
  · rintro ⟨q, r, hr⟩
    exact ⟨⟨q, r, hk q s r hr, hr⟩, hk q s r hr⟩

theorem keepStates_coreTable {p : Label → Bool}
    (hp : ∀ q, p q = true ↔ fa.Reached q ∧ fa.Useful q) : fa.keepStates p = fa.coreTable := by
  refine h.keepStates_congr fun q _ => ?_
  rw [Bool.eq_iff_iff, hp, Bool.and_eq_true, h.contains_reachableFromInitial,
    h.contains_coreachable]

/-- When the unreached states are gone, the useless ones go, and then the unused symbols. -/
theorem live_eq_coreTable : fa.live = fa.coreTable.pruneUnusedSymbols := by
  have hcore : fa.removeUnreachable.keepStates fa.removeUnreachable.coreachable.contains =
      fa.coreTable := by
    rw [Automaton.removeUnreachable, keepStates_keepStates]
    refine h.keepStates_coreTable fun q => ?_
    rw [Bool.and_eq_true, and_comm, h.contains_reachableFromInitial]
    refine and_congr_right fun hq => ?_
    exact h.removeUnreachable.contains_coreachable.trans (h.useful_removeUnreachable_iff hq)
  rw [← hcore]
  rfl

/-- When the useless states and the unused symbols are gone, the unreached states go. -/
theorem removeUnreachable_removeUseless : fa.removeUseless.removeUnreachable =
    fa.coreTable.keepSymbols (fa.keepStates fa.coreachable.contains).usesSymbol := by
  have hcore : (fa.keepStates fa.coreachable.contains).keepStates
      fa.removeUseless.reachableFromInitial.contains = fa.coreTable := by
    rw [keepStates_keepStates]
    refine h.keepStates_coreTable fun q => ?_
    rw [Bool.and_eq_true, h.contains_coreachable]
    refine and_congr_left fun hq => ?_
    exact h.removeUseless.contains_reachableFromInitial.trans (h.reached_removeUseless_iff hq)
  rw [← hcore, ← keepStates_keepSymbols]
  rfl

/-- **Unreached and useless states can be removed in either order**, when the unused symbols are
removed after both. -/
theorem live_eq_prune : fa.live = fa.removeUseless.removeUnreachable.pruneUnusedSymbols := by
  have hcore : fa.coreTable.WellFormed := h.keepStates _
  rw [h.live_eq_coreTable, h.removeUnreachable_removeUseless, hcore.pruneUnusedSymbols_keepSymbols]
  -- a symbol in use between the states that are left was in use before
  intro q s r hr
  obtain ⟨hq, hr, hstep⟩ := (mem_targets_keepStates fa).1 hr
  refine (h.keepStates _).usesSymbol_iff.2 ⟨q, r, (mem_targets_keepStates fa).2 ⟨?_, ?_, hstep⟩⟩
  · exact (Bool.and_eq_true_iff.1 hq).2
  · exact (Bool.and_eq_true_iff.1 hr).2

end WellFormed

end Automaton

end FiniteState
