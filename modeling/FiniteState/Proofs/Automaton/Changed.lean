import FiniteState.Proofs.Automaton.Obtainable
import FiniteState.Proofs.Automaton.Same

/-!
# When a command reports a change

A command that succeeds reports whether it has changed anything.  A simple edit asks the
table before it changes it, and a construction compares its result with the table.  Both
report a change exactly when the automaton is not the same afterwards.  The edit of a cell
asks nothing and always reports a change, also when it writes what stands there already
into an automaton that is not flagged.

## Main definitions

* `Automaton.Truthful` — a report tells whether two automata differ.
* `Automaton.Rewrites` — the command edits a cell to what stands there already.

## Main results

* `WellFormed.agrees_setTargets_iff` — when the edit of a cell changes nothing.
* `truthful_apply` — **all other commands report the truth**.
* `Obtainable.changed_iff` — what a command reports, the edits of cells included.
-/

namespace FiniteState.Automaton

variable {fa fb : Automaton} {c : Command} {changed : Bool} {q : Label} {s : Symbol}

/-- **The report tells whether two automata differ.** -/
def Truthful (fa : Automaton) (changed : Bool) (fb : Automaton) : Prop :=
  changed = true ↔ ¬ fa.Agrees fb

theorem truthful_self (fa : Automaton) : fa.Truthful false fa :=
  ⟨fun h => (Bool.false_ne_true h).elim, fun h => absurd (.refl fa) h⟩

theorem truthful_true (h : ¬ fa.Agrees fb) : fa.Truthful true fb := ⟨fun _ => h, fun _ => rfl⟩

/-! ### Simple edits -/

/-- An edit reports the truth, if it does so where it succeeds. -/
theorem Truthful.edited {asked : Bool} {result : Except AutomatonError Automaton}
    (h : ∀ fb, result = .ok fb → fa.Truthful asked fb)
    (hok : (fa.edited asked result).report = .ok changed) :
    fa.Truthful changed (fa.edited asked result).automaton := by
  cases result with
  | error cause => cases hok
  | ok fb =>
    cases hok
    exact h fb rfl

theorem truthful_insertState (fa : Automaton) (q : Label) :
    fa.Truthful (!fa.hasState q) (fa.insertState q) := by
  by_cases hq : q ∈ fa.states
  · have hstate := fa.hasState_iff.2 hq
    rw [insertState, if_pos hstate, hstate]
    exact truthful_self fa
  · have hstate : fa.hasState q = false := by rwa [← Bool.not_eq_true, fa.hasState_iff]
    rw [hstate]
    exact truthful_true fun h => hq ((h.states q).2 ((mem_states_insertState fa).2 (.inl rfl)))

theorem truthful_insertSymbol (fa : Automaton) (s : Symbol) :
    fa.Truthful (!fa.hasSymbol s) (fa.insertSymbol s) := by
  by_cases hs : s ∈ fa.alphabet
  · have hsymbol := fa.hasSymbol_iff.2 hs
    rw [insertSymbol, if_pos hsymbol, hsymbol]
    exact truthful_self fa
  · have hsymbol : fa.hasSymbol s = false := by rwa [← Bool.not_eq_true, fa.hasSymbol_iff]
    rw [hsymbol]
    refine truthful_true fun h => hs ((h.alphabet s).2 ?_)
    rw [alphabet_insertSymbol, if_neg hs]
    exact List.mem_append_right _ (List.mem_singleton.2 rfl)

/-- A state that is deleted is missed. -/
theorem truthful_deleteState (hq : q ∈ fa.states) : fa.Truthful true (fa.deleteState q) := by
  refine truthful_true fun h => ?_
  have hmem := (h.states q).1 hq
  rw [deleteState, states_keepStates, List.mem_filter] at hmem
  exact bne_iff_ne.1 hmem.2 rfl

/-- So is a symbol. -/
theorem truthful_deleteSymbol (hs : s ∈ fa.alphabet) : fa.Truthful true (fa.deleteSymbol s) := by
  refine truthful_true fun h => ?_
  have hmem := (h.alphabet s).1 hs
  rw [deleteSymbol, alphabet_keepSymbols, List.mem_filter] at hmem
  exact bne_iff_ne.1 hmem.2 rfl

theorem truthful_setInitial (fa : Automaton) (q : Label) :
    fa.Truthful (fa.initial != some q) { fa with initial := some q } := by
  by_cases hq : fa.initial = some q
  · have hsame : ({ fa with initial := some q } : Automaton) = fa := by rw [← hq]
    rw [hsame, hq, bne_self_eq_false]
    exact truthful_self fa
  · rw [bne_iff_ne.2 hq]
    exact truthful_true fun h => hq h.initial

theorem truthful_insertFinal (fa : Automaton) (q : Label) :
    fa.Truthful (!fa.isFinal q) (fa.insertFinal q) := by
  by_cases hq : q ∈ fa.finals
  · have hfinal := fa.isFinal_iff.2 hq
    rw [insertFinal, if_pos hfinal, hfinal]
    exact truthful_self fa
  · have hfinal : fa.isFinal q = false := by rwa [← Bool.not_eq_true, fa.isFinal_iff]
    rw [hfinal]
    refine truthful_true fun h => hq ((h.finals q).2 ?_)
    rw [insertFinal, if_neg (by rw [hfinal]; exact Bool.false_ne_true)]
    exact List.mem_append_right _ (List.mem_singleton.2 rfl)

theorem truthful_removeFinal (fa : Automaton) (q : Label) :
    fa.Truthful (fa.isFinal q) (fa.removeFinal q) := by
  by_cases hq : q ∈ fa.finals
  · rw [fa.isFinal_iff.2 hq]
    refine truthful_true fun h => ?_
    have hmem : q ∈ fa.finals.filter (· != q) := (h.finals q).1 hq
    exact bne_iff_ne.1 (List.mem_filter.1 hmem).2 rfl
  · have hfinal : fa.isFinal q = false := by rwa [← Bool.not_eq_true, fa.isFinal_iff]
    have hkept : fa.finals.filter (· != q) = fa.finals :=
      List.filter_eq_self.2 fun r hr => bne_iff_ne.2 fun heq => hq (heq ▸ hr)
    rw [hfinal, removeFinal, hkept]
    exact truthful_self fa

/-! ### Constructions -/

/-- A construction reports the truth: it compares. -/
theorem truthful_replaced {result : Except AutomatonError Automaton} (hfa : fa.WellFormed)
    (hfb : ∀ fb, result = .ok fb → fb.WellFormed)
    (hok : (fa.replaced result).report = .ok changed) :
    fa.Truthful changed (fa.replaced result).automaton := by
  cases result with
  | error cause => cases hok
  | ok fb =>
    cases hok
    show (!fa.same fb) = true ↔ ¬ fa.Agrees fb
    rw [Bool.not_eq_true', ← Bool.not_eq_true, hfa.same_iff (hfb fb rfl)]

/-! ### The edit of a cell -/

/-- The command edits a cell to what stands there already, without a rejected text, and the
automaton is not flagged as determinized. -/
def Rewrites (fa : Automaton) (c : Command) : Prop :=
  ∃ q s text targets, c = .updateTransition q s text ∧
    Cell.parseTargets text.toList = some targets ∧
    fa.cell? q s = some (.ofTargets targets) ∧ fa.determinized = false

/-- States that are there already need not be added. -/
theorem foldl_insertState_of_mem {ps : List Label} (h : ∀ p ∈ ps, p ∈ fa.states) :
    ps.foldl insertState fa = fa := by
  induction ps with
  | nil => rfl
  | cons p ps ih =>
    have hp : fa.insertState p = fa := if_pos (fa.hasState_iff.2 (h p List.mem_cons_self))
    rw [List.foldl_cons, hp]
    exact ih fun r hr => h r (List.mem_cons_of_mem p hr)

theorem alphabet_foldl_insertState (ps : List Label) :
    (ps.foldl insertState fa).alphabet = fa.alphabet := by
  induction ps generalizing fa with
  | nil => rfl
  | cons p ps ih => rw [List.foldl_cons, ih, alphabet_insertState]

namespace WellFormed

variable (h : fa.WellFormed)

include h

/-- A change that leaves the content of the cell alone leaves the table alone. -/
theorem modifyCell_eq_self {f : Cell → Cell} {d : Cell} (hd : fa.cell? q s = some d)
    (hf : f d = d) : fa.modifyCell q s f = fa := by
  obtain ⟨row, hrow, hcell⟩ := cell?_eq_some_iff.1 hd
  have hkept : ∀ e ∈ fa.rows, (e.1, if e.1 = q then Row.modify e.2 s f else e.2) = e := by
    intro e he
    split
    · -- the row of the state has one cell below the symbol, and that is left alone
      rename_i hq
      obtain rfl : row = e.2 :=
        Option.some.inj (hrow.symm.trans (h.row?_of_mem_rows (q := q) (hq ▸ he)))
      have hcells : ∀ x ∈ e.2, (x.1, if x.1 = s then f x.2 else x.2) = x := by
        intro x hx
        split
        · rename_i hs
          have hx' : e.2.lookup s = some x.2 := h.lookup_of_mem_row he (hs ▸ hx)
          obtain rfl := Option.some.inj (hcell.symm.trans hx')
          rw [hf]
        · rfl
      rw [Row.modify, List.map_congr_left hcells, List.map_id']
    · rfl
  have hrows : (fa.modifyCell q s f).rows = fa.rows := by
    rw [rows_modifyCell, List.map_congr_left hkept, List.map_id']
  show Automaton.mk fa.alphabet (fa.modifyCell q s f).rows fa.initial fa.finals
    fa.determinized = fa
  rw [hrows]

/-- The cell holds its new targets after the edit. -/
theorem cell?_setTargets (hq : q ∈ fa.states) (hs : s ∈ fa.alphabet) (targets : LabelSet) :
    (fa.setTargets q s targets).cell? q s = some (.ofTargets targets) := by
  have hgrown := h.foldl_insertState targets.toList
  obtain ⟨c, hc⟩ := hgrown.exists_cell_iff (q := q) (s := s).2
    ⟨mem_states_foldl_insertState.2 (.inr hq), by rwa [alphabet_foldl_insertState]⟩
  show ((targets.toList.foldl Automaton.insertState fa).modifyCell q s
    fun _ => .ofTargets targets).cell? q s = _
  rw [cell?_modifyCell, hc, Option.map_some, if_pos ⟨rfl, rfl⟩]

/-- An edit of a cell to what stands there takes the flag away and does nothing else. -/
theorem setTargets_of_cell {targets : LabelSet}
    (hcell : fa.cell? q s = some (.ofTargets targets)) :
    fa.setTargets q s targets = fa.withDeterminized false := by
  have htargets : fa.targets q s = targets := fa.targets_of_cell hcell
  have hgrown : targets.toList.foldl Automaton.insertState fa = fa :=
    foldl_insertState_of_mem fun r hr => h.target_mem (htargets ▸ hr)
  rw [Automaton.setTargets, hgrown, h.modifyCell_eq_self hcell rfl]

/-- So it leaves an automaton without the flag alone. -/
theorem setTargets_eq_self {targets : LabelSet}
    (hcell : fa.cell? q s = some (.ofTargets targets)) (hflag : fa.determinized = false) :
    fa.setTargets q s targets = fa := by
  rw [h.setTargets_of_cell hcell, withDeterminized, ← hflag]

/-- **The edit of a cell changes nothing iff the cell holds the new targets**, and no
rejected text, and the automaton is not flagged. -/
theorem agrees_setTargets_iff (hq : q ∈ fa.states) (hs : s ∈ fa.alphabet) {targets : LabelSet} :
    fa.Agrees (fa.setTargets q s targets) ↔
      fa.cell? q s = some (.ofTargets targets) ∧ fa.determinized = false := by
  constructor
  · intro hagrees
    exact ⟨(hagrees.cells q s).trans (h.cell?_setTargets hq hs targets), hagrees.determinized⟩
  · rintro ⟨hcell, hflag⟩
    rw [h.setTargets_eq_self hcell hflag]
    exact .refl fa

end WellFormed

/-- What an edit of a cell that succeeds has done. -/
theorem updateTransition_eq_ok {text : String}
    (hok : (fa.updateTransition q s text).report = .ok changed) :
    q ∈ fa.states ∧ s ∈ fa.alphabet ∧ changed = true ∧ ∃ targets,
      Cell.parseTargets text.toList = some targets ∧
        (fa.updateTransition q s text).automaton = fa.setTargets q s targets := by
  unfold updateTransition at hok ⊢
  by_cases hq : fa.hasState q = true
  · by_cases hs : fa.hasSymbol s = true
    · simp only [hq, hs, Bool.not_true, Bool.false_eq_true, if_false] at hok ⊢
      cases hparse : Cell.parseTargets text.toList with
      | none =>
        rw [hparse] at hok
        cases hok
      | some targets =>
        rw [hparse] at hok
        cases hok
        exact ⟨fa.hasState_iff.1 hq, fa.hasSymbol_iff.1 hs, rfl, targets, rfl, rfl⟩
    · simp [hq, hs] at hok
  · simp [hq] at hok

/-! ### All commands -/

/-- **A command that does not edit a cell to what stands there reports the truth.** -/
theorem truthful_apply (hfa : fa.WellFormed)
    (hoperand : ∀ other, c.operand? = some other → other.WellFormed)
    (hok : (fa.apply c).report = .ok changed) (hrewrites : ¬ fa.Rewrites c) :
    fa.Truthful changed (fa.apply c).automaton := by
  cases c with
  | addState q =>
    refine Truthful.edited (fun fb hfb => ?_) hok
    obtain ⟨-, rfl⟩ := addState_eq_ok hfb
    exact truthful_insertState fa q
  | deleteState q =>
    rw [apply] at hok ⊢
    split at hok <;> rename_i hq <;> cases hok
    · rw [if_pos hq]
      exact truthful_deleteState (fa.hasState_iff.1 hq)
    · rw [if_neg hq]
      exact truthful_self fa
  | addSymbol s =>
    refine Truthful.edited (fun fb hfb => ?_) hok
    obtain ⟨-, rfl⟩ := addSymbol_eq_ok hfb
    exact truthful_insertSymbol fa s
  | deleteSymbol s =>
    rw [apply] at hok ⊢
    split at hok <;> rename_i hs <;> cases hok
    · rw [if_pos hs]
      exact truthful_deleteSymbol (fa.hasSymbol_iff.1 hs)
    · rw [if_neg hs]
      exact truthful_self fa
  | setInitial q =>
    refine Truthful.edited (fun fb hfb => ?_) hok
    obtain ⟨-, rfl⟩ := setInitial_eq_ok hfb
    exact truthful_setInitial fa q
  | addFinal q =>
    refine Truthful.edited (fun fb hfb => ?_) hok
    obtain ⟨-, rfl⟩ := addFinal_eq_ok hfb
    exact truthful_insertFinal fa q
  | removeFinal q =>
    cases hok
    exact truthful_removeFinal fa q
  | updateTransition q s text =>
    obtain ⟨hq, hs, rfl, targets, hparse, hfb⟩ := updateTransition_eq_ok hok
    show fa.Truthful true (fa.updateTransition q s text).automaton
    rw [hfb]
    refine truthful_true fun hagrees => hrewrites ⟨q, s, text, targets, rfl, hparse, ?_⟩
    exact (hfa.agrees_setTargets_iff hq hs).1 hagrees
  | determinize =>
    refine truthful_replaced hfa (fun fb hfb => ?_) hok
    rw [← Except.ok.inj hfb]
    exact hfa.determinize
  | minimize => exact truthful_replaced hfa (fun fb hfb => hfa.minimize hfb) hok
  | union other =>
    exact truthful_replaced hfa (fun fb hfb => hfa.union (hoperand other rfl) hfb) hok
  | intersection other =>
    exact truthful_replaced hfa (fun fb hfb => hfa.intersection (hoperand other rfl) hfb) hok

/-- An edit of a cell to what stands there reports a change and makes none. -/
theorem Rewrites.apply_eq (h : fa.Rewrites c) (hfa : fa.WellFormed)
    (hok : (fa.apply c).report = .ok changed) :
    changed = true ∧ (fa.apply c).automaton = fa := by
  obtain ⟨q, s, text, targets, rfl, hparse, hcell, hflag⟩ := h
  obtain ⟨-, -, rfl, targets', hparse', hfb⟩ := updateTransition_eq_ok hok
  obtain rfl := Option.some.inj (hparse.symm.trans hparse')
  exact ⟨rfl, hfb.trans (hfa.setTargets_eq_self hcell hflag)⟩

/-- **A command that succeeds reports whether the automaton differs afterwards**, unless it
edits a cell to what stands there already: then it reports a change and has made none. -/
theorem Obtainable.changed_iff (h : fa.Obtainable)
    (hoperand : ∀ other, c.operand? = some other → other.Obtainable)
    (hok : (fa.apply c).report = .ok changed) :
    (fa.Rewrites c → changed = true ∧ (fa.apply c).automaton = fa) ∧
      (¬ fa.Rewrites c → (changed = true ↔ fa.same (fa.apply c).automaton = false)) := by
  refine ⟨fun hrewrites => hrewrites.apply_eq h.wellFormed hok, fun hrewrites => ?_⟩
  have hafter := (h.apply c hoperand).wellFormed
  rw [← Bool.not_eq_true, h.wellFormed.same_iff hafter]
  exact truthful_apply h.wellFormed (fun other hother => (hoperand other hother).wellFormed) hok
    hrewrites

/-- The automaton of `S -> aS | a` is determinized, and differs afterwards. -/
theorem changed_iff_determinized :
    ((ofDraft (.ofText "S -> aS | a")).apply .determinize).report = .ok true ∧
      (ofDraft (.ofText "S -> aS | a")).same
        ((ofDraft (.ofText "S -> aS | a")).apply .determinize).automaton = false := by
  have hok : ((ofDraft (.ofText "S -> aS | a")).apply .determinize).report = .ok true := by
    decide +kernel
  have hchanged := (Obtainable.ofText "S -> aS | a").changed_iff (by simp [Command.operand?]) hok
  refine ⟨hok, (hchanged.2 ?_).1 rfl⟩
  rintro ⟨q, s, text, targets, heq, -⟩
  cases heq

/-- The start state of that grammar moves to itself and to the end on `a`.  The edit of its
cell to these two targets reports a change, and the automaton is the same afterwards. -/
theorem changed_of_rewritten_cell :
    (ofDraft (.ofText "S -> aS | a")).Obtainable ∧
      ((ofDraft (.ofText "S -> aS | a")).apply (.updateTransition "S" 'a' "S, $")).report =
        .ok true ∧
      (ofDraft (.ofText "S -> aS | a")).same
        ((ofDraft (.ofText "S -> aS | a")).apply (.updateTransition "S" 'a' "S, $")).automaton =
          true :=
  ⟨.ofText _, by decide +kernel, by decide +kernel⟩

end FiniteState.Automaton
