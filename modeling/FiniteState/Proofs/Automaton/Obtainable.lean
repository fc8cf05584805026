import FiniteState.Regex.Compile
import FiniteState.Proofs.Automaton.Named
import FiniteState.Proofs.Grammar.OfAutomaton
import FiniteState.Proofs.Grammar.WellFormed
import FiniteState.Proofs.Regex.Compile

/-!
# The automata that can be obtained

An automaton starts out empty, or comes from a regular expression or a grammar,
and is then changed by commands, trimmed and renamed.  Every step keeps the
invariant, so it holds of every automaton that can be obtained, whatever the steps
and their order were, and also after commands that fail.

## Main definitions

* `Automaton.Obtainable` — the automata that can be obtained.

## Main results

* `WellFormed.change` — **every change that a command can make keeps the invariant**.
* `Obtainable.wellFormed`, `Obtainable.named` — **every automaton that can be obtained is
  well formed**, and its labels and symbols are as they should be.
-/

namespace FiniteState

namespace Automaton

/-- **The automata that can be obtained**: by any constructions to begin with, and by
any commands and other steps after them. -/
inductive Obtainable : Automaton → Prop
  /-- There is the automaton without states and symbols. -/
  | empty : Obtainable .empty
  /-- A regular expression is compiled. -/
  | compile {text : List Char} {fa : Automaton} : Regex.compile text = .ok fa → Obtainable fa
  /-- A text is read as a grammar, whether it is one or not. -/
  | ofText (text : String) : Obtainable (.ofDraft (.ofText text))
  /-- A grammar is read off an automaton. -/
  | ofAutomaton {fa : Automaton} {g : Grammar} :
    Obtainable fa → Grammar.ofAutomaton fa = .ok g → Obtainable (.ofDraft (.ofGrammar g))
  /-- A command is applied, and succeeds or fails. -/
  | apply {fa : Automaton} (c : Command) :
    Obtainable fa → (∀ other, c.operand? = some other → Obtainable other) →
      Obtainable (fa.apply c).automaton
  /-- The useless states are removed. -/
  | removeUseless {fa : Automaton} : Obtainable fa → Obtainable fa.removeUseless
  /-- The unreachable states are removed. -/
  | removeUnreachable {fa : Automaton} : Obtainable fa → Obtainable fa.removeUnreachable
  /-- The unused symbols are removed. -/
  | pruneUnusedSymbols {fa : Automaton} : Obtainable fa → Obtainable fa.pruneUnusedSymbols
  /-- The states are renamed from a pool of any contents. -/
  | renameWith {fa : Automaton} (pool : LabelPool) :
    Obtainable fa → Obtainable (fa.renameWith pool).1

variable {fa fb : Automaton}

/-- A command that needs no other automaton can be applied as it is. -/
theorem Obtainable.edit (h : fa.Obtainable) (c : Command) (hc : c.operand? = none) :
    (fa.apply c).automaton.Obtainable :=
  h.apply c fun other hother => absurd (hc.symm.trans hother) (Option.some_ne_none other).symm

/-! ### Commands -/

namespace WellFormed

theorem minimize (h : fa.WellFormed) (hok : fa.minimize = .ok fb) : fb.WellFormed := by
  obtain ⟨m, hm, hreduced, -⟩ := h.exists_minimize (determinized_of_minimize_eq_ok hok)
  rw [hm] at hok
  rw [← Except.ok.inj hok]
  exact hreduced.wellFormed

theorem union (hfa : fa.WellFormed) (hfb : fb.WellFormed) {fc : Automaton}
    (hok : fa.union fb = .ok fc) : fc.WellFormed := by
  obtain ⟨pool, i, j, hapart, rfl⟩ := union_eq_ok hok
  exact (hfa.renameWith pool).joined hfb hapart

theorem intersection (hfa : fa.WellFormed) (hfb : fb.WellFormed) {fc : Automaton}
    (hok : fa.intersection fb = .ok fc) : fc.WellFormed := by
  obtain ⟨hboth, rfl⟩ := intersection_eq_ok hok
  have hflag := (Bool.and_eq_true_iff.1 hboth).1
  exact ((lawful_pairs hfa hfb (hfa.deterministic hflag)).wellFormed _).rename

/-- **Every change that a command can make keeps the invariant.** -/
theorem change (h : fa.WellFormed) {c : Command} (hchange : fa.Change c fb)
    (hc : ∀ other, c.operand? = some other → other.WellFormed) : fb.WellFormed := by
  cases hchange with
  | unchanged => exact h
  | addState => exact h.insertState _
  | deleteState => exact h.keepStates _
  | addSymbol => exact h.insertSymbol _
  | deleteSymbol => exact h.keepSymbols _
  | setInitial hq =>
    refine h.withMarks (fun r hr => ?_) (fun _ => h.final_mem) h.finals_nodup
    rwa [← Option.some.inj hr]
  | addFinal hq => exact h.insertFinal hq
  | removeFinal => exact h.removeFinal _
  | setTargets => exact h.setTargets _ _ _
  | rejectText => exact h.rejectText _ _ _
  | determinize => exact h.determinize
  | minimize hok => exact h.minimize hok
  | union hok => exact h.union (hc _ rfl) hok
  | intersection hok => exact h.intersection (hc _ rfl) hok

end WellFormed

/-! ### All steps -/

theorem named_automaton {e : Regex.Expr Symbol} (h : e.OverTerminals) :
    (Regex.PositionTable.ofExpr e).automaton.Named := by
  refine named_rename fun s hs => Symbol.isTransitionSymbol_iff.2 (.inl ?_)
  exact h s (Regex.PositionTable.mem_alphabet.1 hs)

/-- Every automaton that can be obtained is well formed, and its labels and symbols are
as they should be.  A grammar that is read off an automaton needs both. -/
theorem Obtainable.wellFormed_named (h : fa.Obtainable) : fa.WellFormed ∧ fa.Named := by
  induction h with
  | empty => exact ⟨wellFormed_empty, named_empty⟩
  | compile hcompile =>
    obtain ⟨e, hparse, rfl⟩ := Regex.compile_eq_ok.1 hcompile
    have hletters := Regex.overTerminals_parse hparse
    exact ⟨Regex.PositionTable.wellFormed_automaton hletters,
      named_automaton hletters⟩
  | ofText text =>
    rw [Grammar.Draft.ofText]
    cases hparse : Grammar.parse text with
    | error causes => exact ⟨wellFormed_empty, named_empty⟩
    | ok g =>
      have hg := Grammar.proper_parse hparse
      exact ⟨hg.wellFormed, hg.named⟩
  | ofAutomaton _ hg ih =>
    have hg := Grammar.proper_ofAutomaton ih.1 ih.2.symbol hg
    exact ⟨hg.wellFormed, hg.named⟩
  | apply c _ _ ih ihc =>
    exact ⟨ih.1.change (change_apply _ c) fun other hother => (ihc other hother).1,
      ih.2.change ih.1 (change_apply _ c) fun other hother => (ihc other hother).2⟩
  | removeUseless _ ih => exact ⟨ih.1.removeUseless, ih.2.removeUseless⟩
  | removeUnreachable _ ih => exact ⟨ih.1.removeUnreachable, ih.2.keepStates _⟩
  | pruneUnusedSymbols _ ih => exact ⟨ih.1.pruneUnusedSymbols, ih.2.keepSymbols _⟩
  | renameWith pool _ ih => exact ⟨ih.1.renameWith pool, named_renameWith pool ih.2.symbol⟩

/-- **Every automaton that can be obtained is well formed.** -/
theorem Obtainable.wellFormed (h : fa.Obtainable) : fa.WellFormed := h.wellFormed_named.1

/-- **Its labels are valid, and its symbols are terminals or the marker.** -/
theorem Obtainable.named (h : fa.Obtainable) : fa.Named := h.wellFormed_named.2

end Automaton

end FiniteState
