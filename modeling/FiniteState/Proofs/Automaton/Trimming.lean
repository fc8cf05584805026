import FiniteState.Proofs.Automaton.Language
import FiniteState.Proofs.Automaton.Restriction
import FiniteState.Proofs.Automaton.Same

/-!
# Trimming is exact

Trimming removes what it says and nothing else: the states of one kind are left in their order,
with their marks, their cells and the texts rejected in these, and in the cells the targets of
that kind.  The states and the symbols go one at a time, and each deletion prunes the table
that the ones before it have left; in the end this is one restriction.

## Main definitions

* `Automaton.RestrictedTo` — one table is another one, restricted to some states and symbols.

## Main results

* `WellFormed.restrictedTo` — restricting a table by two tests leaves just that.
* `WellFormed.removeUseless_eq_foldl`, `WellFormed.removeUnreachable_eq_foldl` — trimming
  deletes states and symbols one after the other.
* `Obtainable.trimming` — **trimming is exact, keeps the language and can be done in either
  order**.
-/

namespace FiniteState.Automaton

variable {fa : Automaton} {p : Label → Bool} {k : Symbol → Bool} {P : Label → Prop}
  {K : Symbol → Prop} {q : Label} {s : Symbol} {c : Cell}

/-- **One table is another one, restricted to some states and symbols.**  Marks and cells are
those of the whole table, as far as they are about the states that are left. -/
structure RestrictedTo (fa : Automaton) (P : Label → Prop) (K : Symbol → Prop)
    (fb : Automaton) : Prop where
  /-- The states that are left stand in their order. -/
  states_sublist : fb.states.Sublist fa.states
  /-- Exactly the states of one kind are left. -/
  mem_states : ∀ q, q ∈ fb.states ↔ q ∈ fa.states ∧ P q
  /-- The symbols that are left stand in their order. -/
  alphabet_sublist : fb.alphabet.Sublist fa.alphabet
  /-- Exactly the symbols of one kind are left. -/
  mem_alphabet : ∀ s, s ∈ fb.alphabet ↔ s ∈ fa.alphabet ∧ K s
  /-- A cell keeps its targets of the one kind, and a text that was rejected. -/
  cells : ∀ q ∈ fb.states, ∀ s ∈ fb.alphabet, ∃ c d, fa.cell? q s = some c ∧
    fb.cell? q s = some d ∧ (∀ r, r ∈ d.targets ↔ r ∈ c.targets ∧ P r) ∧ d.rejected = c.rejected
  /-- The initial state keeps its mark, if it is left. -/
  initial : ∀ q, fb.initial = some q ↔ fa.initial = some q ∧ P q
  /-- The accepting states that are left stand in their order. -/
  finals_sublist : fb.finals.Sublist fa.finals
  /-- The accepting states keep their marks. -/
  mem_finals : ∀ q, q ∈ fb.finals ↔ q ∈ fa.finals ∧ P q
  /-- The flag is kept. -/
  determinized : fb.determinized = fa.determinized

/-- The cells of a restricted table. -/
theorem cell?_restricted (hc : fa.cell? q s = some c) (hq : p q = true) (hs : k s = true) :
    ((fa.keepStates p).keepSymbols k).cell? q s = some (c.mapTargets (.filter p)) := by
  rw [cell?_keepSymbols, if_pos hs, cell?_keepStates, if_pos hq, hc, Option.map_some]

namespace WellFormed

variable (h : fa.WellFormed)

include h

/-- **Restricting a table by two tests leaves the states and the symbols that pass them**, and
nothing is lost between these. -/
theorem restrictedTo (hp : ∀ q, p q = true ↔ P q) (hk : ∀ s, k s = true ↔ K s) :
    fa.RestrictedTo P K ((fa.keepStates p).keepSymbols k) where
  states_sublist := by
    rw [states_keepSymbols, states_keepStates]
    exact List.filter_sublist
  mem_states q := by rw [states_keepSymbols, states_keepStates, List.mem_filter, hp]
  alphabet_sublist := List.filter_sublist
  mem_alphabet s := by rw [alphabet_keepSymbols, List.mem_filter, hk, alphabet_keepStates]
  cells q hq s hs := by
    rw [states_keepSymbols, states_keepStates, List.mem_filter] at hq
    rw [alphabet_keepSymbols, alphabet_keepStates, List.mem_filter] at hs
    obtain ⟨c, hc⟩ := h.exists_cell_iff.2 ⟨hq.1, hs.1⟩
    refine ⟨c, c.mapTargets (.filter p), hc, cell?_restricted hc hq.2 hs.2, fun r => ?_, rfl⟩
    rw [Cell.mapTargets, LabelSet.mem_filter, hp]
  initial q := by rw [initial_keepSymbols, initial_keepStates, Option.filter_eq_some_iff, hp]
  finals_sublist := List.filter_sublist
  mem_finals q := by rw [finals_keepSymbols, finals_keepStates, List.mem_filter, hp]
  determinized := rfl

/-! ### Useless and unreached states -/

/-- Of a table without the useless states, the symbols that are left lead from a useful state to
another one. -/
theorem restrictedTo_removeUseless : fa.RestrictedTo fa.Useful
    (fun s => ∃ q r, fa.Useful q ∧ fa.Useful r ∧ r ∈ fa.targets q s) fa.removeUseless := by
  refine h.restrictedTo (fun q => h.contains_coreachable) fun s => ?_
  rw [(h.keepStates _).usesSymbol_iff]
  simp only [mem_targets_keepStates, h.contains_coreachable]

theorem restrictedTo_removeUnreachable :
    fa.RestrictedTo fa.Reached (fun _ => True) fa.removeUnreachable := by
  rw [Automaton.removeUnreachable, ← keepSymbols_true (fa.keepStates _)]
  exact h.restrictedTo (fun q => h.contains_reachableFromInitial) fun s => by simp

/-- **The unreached states are deleted one after the other.** -/
theorem removeUnreachable_eq_foldl : fa.removeUnreachable =
    (fa.states.filter fun q => !fa.reachableFromInitial.contains q).foldl deleteState fa :=
  h.keepStates_eq_foldl _

/-- **The useless states are deleted one after the other**, and then the symbols that no cell
uses any more. -/
theorem removeUseless_eq_foldl : fa.removeUseless =
    let fb := (fa.states.filter fun q => !fa.coreachable.contains q).foldl deleteState fa
    (fb.alphabet.filter fun s => !fb.usesSymbol s).foldl deleteSymbol fb := by
  have hstates := h.keepStates_eq_foldl fa.coreachable.contains
  have hsymbols := (h.keepStates fa.coreachable.contains).keepSymbols_eq_foldl
    (fa.keepStates fa.coreachable.contains).usesSymbol
  rw [← hstates, ← hsymbols]
  rfl

end WellFormed

/-- **Trimming is exact, keeps the language and can be done in either order.**  Without the
useless states the useful ones are left, with the symbols in use between them; without the
unreached states the reached ones are left, with all symbols.  Removing the unreached states and
then the useless ones is the same as doing this the other way around, when the symbols are pruned
that are not in use any more. -/
theorem Obtainable.trimming (h : fa.Obtainable) :
    fa.RestrictedTo fa.Useful (fun s => ∃ q r, fa.Useful q ∧ fa.Useful r ∧ r ∈ fa.targets q s)
        fa.removeUseless ∧
      fa.RestrictedTo fa.Reached (fun _ => True) fa.removeUnreachable ∧
      (∀ w, fa.removeUseless.accepts w = fa.accepts w) ∧
      (∀ w, fa.removeUnreachable.accepts w = fa.accepts w) ∧
      fa.removeUnreachable.removeUseless =
        fa.removeUseless.removeUnreachable.pruneUnusedSymbols :=
  ⟨h.wellFormed.restrictedTo_removeUseless, h.wellFormed.restrictedTo_removeUnreachable,
    fun _ => h.wellFormed.accepts_removeUseless, fun _ => h.wellFormed.accepts_removeUnreachable,
    h.wellFormed.live_eq_prune⟩

/-- The automaton of `a` gets a state that leads to the accepting one on a symbol of its own, and
a state that leads nowhere.  The first is useful but not reached, so the symbol is in use until
both kinds of states are gone. -/
theorem trimming_symbol :
    ∃ fa : Automaton, fa.Obtainable ∧ fa.states = ["A", "B", "C", "D"] ∧
      fa.removeUseless.states = ["A", "B", "C"] ∧ fa.removeUseless.alphabet = ['a', 'c'] ∧
      fa.removeUnreachable.states = ["A", "B", "D"] ∧
      fa.removeUseless.removeUnreachable.alphabet = ['a', 'c'] ∧
      fa.removeUseless.removeUnreachable.pruneUnusedSymbols.alphabet = ['a'] ∧
      fa.removeUnreachable.removeUseless =
        fa.removeUseless.removeUnreachable.pruneUnusedSymbols := by
  have hparse : Regex.parse ['a'] = .ok (.letter 'a') := rfl
  have h := (obtainable_automaton hparse).edit (.addSymbol 'c') rfl
  have h := h.edit (.addState "C") rfl
  have h := h.edit (.updateTransition "C" 'c' "B") rfl
  have h := h.edit (.updateTransition "B" 'a' "D") rfl
  exact ⟨_, h, by decide, by decide, by decide, by decide, by decide, by decide,
    h.trimming.2.2.2.2⟩

end FiniteState.Automaton
