import FiniteState.Proofs.Automaton.Obtainable
import FiniteState.Proofs.Split.Command

/-!
# The automata in two collections that can be obtained

An automaton in two collections starts out empty, or is written from a regular expression or
a grammar, and is then changed by commands, trimmed and renamed.  No step touches one collection
without the other where it should not, so that rows and states are in step throughout.  The steps
do what the running definitions do, and so the automata that can be obtained are those of the
running program.

## Main definitions

* `SplitAutomaton.Obtainable` — the automata in two collections that can be obtained.

## Main results

* `SplitAutomaton.Obtainable.inStep` — **rows and states are in step after any run**.
* `SplitAutomaton.obtainable_iff` — **the automata that can be obtained are those of the running
  program**.
-/

namespace FiniteState

/-- **The automata in two collections that can be obtained**: by any constructions to begin with,
and by any commands and other steps after them. -/
inductive SplitAutomaton.Obtainable : SplitAutomaton → Prop
  /-- There is the automaton without states and symbols. -/
  | empty : Obtainable .empty
  /-- A regular expression is compiled. -/
  | compile {text : List Char} {e : Regex.Expr Symbol} :
    Regex.parse text = .ok e → Obtainable (.ofPositions (.ofExpr e))
  /-- A text is read as a grammar, whether it is one or not. -/
  | ofText (text : String) : Obtainable (.ofDraft (.ofText text))
  /-- A grammar is read off an automaton. -/
  | ofAutomaton {a : SplitAutomaton} {g : Grammar} :
    Obtainable a → Grammar.ofAutomaton a.table = .ok g → Obtainable (.ofDraft (.ofGrammar g))
  /-- A command is applied, and succeeds or fails.  What it refers to, if anything, is what is read
  of another automaton. -/
  | apply {a b : SplitAutomaton} (c : Command) :
    Obtainable a → Obtainable b → (∀ other, c.operand? = some other → b.table = other) →
      Obtainable (a.apply c).automaton
  /-- The useless states are removed. -/
  | removeUseless {a : SplitAutomaton} : Obtainable a → Obtainable a.removeUseless
  /-- The unreachable states are removed. -/
  | removeUnreachable {a : SplitAutomaton} : Obtainable a → Obtainable a.removeUnreachable
  /-- The unused symbols are removed. -/
  | pruneUnusedSymbols {a : SplitAutomaton} : Obtainable a → Obtainable a.pruneUnusedSymbols
  /-- The states are renamed from a pool of any contents. -/
  | renameWith {a : SplitAutomaton} (pool : LabelPool) :
    Obtainable a → Obtainable (a.renameWith pool).1

namespace SplitAutomaton

variable {a : SplitAutomaton}

/-- **Rows and states are in step after any run**, as every step keeps them so. -/
theorem Obtainable.inStep (h : a.Obtainable) : a.InStep := by
  induction h with
  | empty => exact inStep_empty
  | compile _ => exact inStep_ofPositions _
  | ofText text => exact inStep_ofDraft _
  | ofAutomaton _ _ _ => exact inStep_ofDraft _
  | apply c _ _ _ ih _ => exact ih.apply c
  | removeUseless _ ih => exact ih.removeUseless
  | removeUnreachable _ ih => exact ih.removeUnreachable
  | pruneUnusedSymbols _ ih => exact ih.pruneUnusedSymbols
  | renameWith pool _ ih => exact ih.renameWith pool

theorem split_ofText (text : String) :
    (Automaton.ofDraft (.ofText text)).split = ofDraft (.ofText text) := by
  refine Grammar.split_ofDraft fun g hg => ?_
  rw [Grammar.Draft.ofText] at hg
  cases hparse : Grammar.parse text with
  | error causes =>
    rw [hparse] at hg
    cases hg
  | ok g' =>
    rw [hparse] at hg
    obtain rfl : g' = g := Option.some.inj hg
    exact Grammar.canonical_parse hparse

theorem split_ofAutomaton {fa : Automaton} (h : fa.WellFormed) (hnamed : fa.Named) {g : Grammar}
    (hg : Grammar.ofAutomaton fa = .ok g) :
    (Automaton.ofDraft (.ofGrammar g)).split = ofDraft (.ofGrammar g) := by
  refine Grammar.split_ofDraft fun g' hg' => ?_
  obtain rfl : g = g' := Option.some.inj hg'
  exact Grammar.canonical_ofAutomaton h hnamed.symbol hg

/-- What can be obtained in two collections is obtained by the running program. -/
theorem Obtainable.exists_split (h : a.Obtainable) :
    ∃ fa : Automaton, fa.Obtainable ∧ fa.split = a := by
  induction h with
  | empty => exact ⟨_, .empty, rfl⟩
  | compile hparse =>
    refine ⟨_, .compile (Regex.compile_eq_ok.2 ⟨_, hparse, rfl⟩), ?_⟩
    exact Regex.PositionTable.split_automaton (Regex.overTerminals_parse hparse)
  | ofText text => exact ⟨_, .ofText text, split_ofText text⟩
  | ofAutomaton _ hg ih =>
    obtain ⟨fa, hfa, rfl⟩ := ih
    rw [hfa.wellFormed.table_split] at hg
    exact ⟨_, .ofAutomaton hfa hg, split_ofAutomaton hfa.wellFormed hfa.named hg⟩
  | apply c _ _ hother ih ih' =>
    obtain ⟨fa, hfa, rfl⟩ := ih
    obtain ⟨fb, hfb, rfl⟩ := ih'
    rw [hfb.wellFormed.table_split] at hother
    have hoperand : ∀ other, c.operand? = some other → other.Obtainable :=
      fun other hc => hother other hc ▸ hfb
    refine ⟨_, hfa.apply c hoperand, ?_⟩
    rw [hfa.wellFormed.split_apply hfa.named c fun other hc =>
      (hoperand other hc).wellFormed_named]
    rfl
  | removeUseless _ ih =>
    obtain ⟨fa, hfa, rfl⟩ := ih
    exact ⟨_, hfa.removeUseless, hfa.wellFormed.split_removeUseless⟩
  | removeUnreachable _ ih =>
    obtain ⟨fa, hfa, rfl⟩ := ih
    exact ⟨_, hfa.removeUnreachable, hfa.wellFormed.split_removeUnreachable⟩
  | pruneUnusedSymbols _ ih =>
    obtain ⟨fa, hfa, rfl⟩ := ih
    exact ⟨_, hfa.pruneUnusedSymbols, hfa.wellFormed.split_pruneUnusedSymbols⟩
  | renameWith pool _ ih =>
    obtain ⟨fa, hfa, rfl⟩ := ih
    exact ⟨_, hfa.renameWith pool, hfa.wellFormed.split_renameWith pool⟩

end SplitAutomaton

/-- What the running program obtains can be obtained in two collections. -/
theorem Automaton.Obtainable.split {fa : Automaton} (h : fa.Obtainable) : fa.split.Obtainable := by
  induction h with
  | empty => exact .empty
  | compile hcompile =>
    obtain ⟨e, hparse, rfl⟩ := Regex.compile_eq_ok.1 hcompile
    rw [Regex.PositionTable.split_automaton (Regex.overTerminals_parse hparse)]
    exact .compile hparse
  | ofText text =>
    rw [SplitAutomaton.split_ofText]
    exact .ofText text
  | ofAutomaton hfa hg ih =>
    rw [SplitAutomaton.split_ofAutomaton hfa.wellFormed hfa.named hg]
    exact .ofAutomaton ih (hfa.wellFormed.table_split.symm ▸ hg)
  | @apply fa c hfa hoperand ih ihc =>
    have happly := hfa.wellFormed.split_apply hfa.named c fun other hc =>
      (hoperand other hc).wellFormed_named
    show (Outcome.split (fa.apply c)).automaton.Obtainable
    rw [← happly]
    cases hc : c.operand? with
    | none => exact .apply c ih .empty fun other hother => absurd (hc.symm.trans hother) nofun
    | some other =>
      refine .apply c ih (ihc other hc) fun other' hother => ?_
      rw [(hoperand other hc).wellFormed.table_split]
      exact Option.some.inj (hc.symm.trans hother)
  | removeUseless hfa ih =>
    rw [hfa.wellFormed.split_removeUseless]
    exact .removeUseless ih
  | removeUnreachable hfa ih =>
    rw [hfa.wellFormed.split_removeUnreachable]
    exact .removeUnreachable ih
  | pruneUnusedSymbols hfa ih =>
    rw [hfa.wellFormed.split_pruneUnusedSymbols]
    exact .pruneUnusedSymbols ih
  | renameWith pool hfa ih =>
    rw [hfa.wellFormed.split_renameWith]
    exact .renameWith pool ih

/-- **The automata that can be obtained are those of the running program.** -/
theorem SplitAutomaton.obtainable_iff {a : SplitAutomaton} :
    a.Obtainable ↔ ∃ fa : Automaton, fa.Obtainable ∧ fa.split = a := by
  constructor
  · exact fun h => h.exists_split
  · rintro ⟨fa, hfa, rfl⟩
    exact hfa.split

end FiniteState
