import FiniteState.Proofs.Automaton.Obtainable

/-!
# The automaton of a grammar accepts its words

A derivation in a right-regular grammar rewrites the only nonterminal of a sentential
form, which stands at its end.  So a derivation is a run: the automaton is in the state
of the nonterminal that is left, and in the sentinel once there is none.

Two things could go wrong.  A transition on the marker would read nothing, but the
alternatives carry terminals, so the column of the marker stays empty.  And no
nonterminal but the start symbol is made accepting, which is enough because no other
one derives the empty word.

## Main definitions

* `Grammar.Obtainable` — the grammars that can be obtained.

## Main results

* `Grammar.Proper.not_silent`, `Grammar.Proper.ofChar_mem_finals` — the column of the marker
  is empty, and a nonterminal accepts if it derives the empty word.
* `Grammar.Proper.acceptsFrom_ofChar_iff` — a state accepts what its nonterminal derives.
* `Grammar.Obtainable.accepts_iff_derives` — **the automaton of a grammar accepts the words
  of the grammar**.
-/

namespace FiniteState.Grammar

variable {g : Grammar} {n t : Symbol} {w : List Symbol} {p : Production} {r : Label}

/-! ### Derivations by the word -/

theorem derivesFrom_nil_iff : g.DerivesFrom n [] ↔ .empty ∈ g.alternatives n := by
  constructor
  · intro h
    cases h with
    | empty hempty => exact hempty
  · exact .empty

/-- The first symbol of a word is derived by the first step. -/
theorem derivesFrom_cons_iff : g.DerivesFrom n (t :: w) ↔
    .terminal t ∈ g.alternatives n ∧ w = [] ∨
      ∃ m, .step t m ∈ g.alternatives n ∧ g.DerivesFrom m w := by
  constructor
  · intro h
    cases h with
    | terminal hterminal => exact .inl ⟨hterminal, rfl⟩
    | step hstep hrest => exact .inr ⟨_, hstep, hrest⟩
  · intro h
    rcases h with ⟨hterminal, rfl⟩ | ⟨m, hstep, hrest⟩
    · exact .terminal hterminal
    · exact .step hstep hrest

/-! ### The automaton -/

namespace Proper

variable (h : g.Proper)

include h

/-- **The column of the marker is empty.** -/
theorem not_silent {q : Label} : r ∉ (Automaton.ofGrammar g).targets q Symbol.epsilon := by
  intro hr
  rcases mem_states_ofGrammar.1 (Automaton.mem_states_of_mem_targets _ hr) with ⟨n, hn, rfl⟩ | rfl
  · rcases (h.mem_targets_ofGrammar hn).1 hr with ⟨hp, -⟩ | ⟨m, hp, -⟩
    · have hterminal : Symbol.isTerminal Symbol.epsilon = true := h.proper_of_mem_alternatives hp
      simp at hterminal
    · have hterminal := (h.proper_of_mem_alternatives hp).1
      simp at hterminal
  · rw [h.targets_sentinel] at hr
    exact absurd hr (LabelSet.notMem_empty r)

/-- A nonterminal accepts if it derives the empty word. -/
theorem ofChar_mem_finals (hn : n ∈ g.nonterminals) :
    Label.ofChar n ∈ (Automaton.ofGrammar g).finals ↔ .empty ∈ g.alternatives n := by
  have hne := ofChar_ne_sentinel (h.isNonterminal hn)
  have hfinals : Label.ofChar n ∈ (Automaton.ofGrammar g).finals ↔
      g.derivesEmpty = true ∧ n = g.start := by
    unfold Automaton.ofGrammar
    split
    · rename_i hempty
      simp [hne, hempty, Label.ofChar_injective.eq_iff]
    · rename_i hempty
      simp [hne, hempty]
  rw [hfinals, derivesEmpty, List.contains_iff_mem]
  constructor
  · intro hstart
    rw [hstart.2]
    exact hstart.1
  · intro hempty
    obtain rfl := h.eq_start_of_empty hempty
    exact ⟨hempty, rfl⟩

/-- The sentinel accepts, and is not left again. -/
theorem acceptsFrom_sentinel_iff :
    (Automaton.ofGrammar g).AcceptsFrom Label.sentinel w ↔ w = [] := by
  cases w with
  | nil => exact iff_of_true (Automaton.acceptsFrom_nil_of_mem List.mem_cons_self) rfl
  | cons t w =>
    rw [Automaton.acceptsFrom_cons_iff h.not_silent, h.targets_sentinel]
    refine iff_of_false (fun hr => ?_) (List.cons_ne_nil t w)
    obtain ⟨r, hr, -⟩ := hr
    exact LabelSet.notMem_empty r hr

/-- **A state accepts what its nonterminal derives.**  The induction is on the word: its
first symbol is read by the transition that stands for the first step. -/
theorem acceptsFrom_ofChar_iff (hn : n ∈ g.nonterminals) :
    (Automaton.ofGrammar g).AcceptsFrom (Label.ofChar n) w ↔ g.DerivesFrom n w := by
  induction w generalizing n with
  | nil =>
    rw [Automaton.acceptsFrom_nil_iff h.not_silent, h.ofChar_mem_finals hn, derivesFrom_nil_iff]
  | cons t w ih =>
    rw [Automaton.acceptsFrom_cons_iff h.not_silent, derivesFrom_cons_iff]
    constructor
    · intro haccepts
      obtain ⟨r, hr, hw⟩ := haccepts
      rcases (h.mem_targets_ofGrammar hn).1 hr with ⟨hterminal, rfl⟩ | ⟨m, hstep, rfl⟩
      · exact .inl ⟨hterminal, h.acceptsFrom_sentinel_iff.1 hw⟩
      · exact .inr ⟨m, hstep, (ih (mem_nonterminals_of_step hstep)).1 hw⟩
    · intro hderives
      rcases hderives with ⟨hterminal, rfl⟩ | ⟨m, hstep, hw⟩
      · have hr := (h.mem_targets_ofGrammar hn).2 (.inl ⟨hterminal, rfl⟩)
        exact ⟨_, hr, h.acceptsFrom_sentinel_iff.2 rfl⟩
      · have hr := (h.mem_targets_ofGrammar hn).2 (.inr ⟨m, hstep, rfl⟩)
        exact ⟨_, hr, (ih (mem_nonterminals_of_step hstep)).2 hw⟩

/-- **The automaton of a proper grammar accepts the words of the grammar.** -/
theorem accepts_ofGrammar_iff :
    (Automaton.ofGrammar g).accepts w = true ↔ g.Derives w := by
  rw [h.wellFormed.accepts_iff, Derives, ← h.acceptsFrom_ofChar_iff h.start_mem]
  constructor
  · intro haccepts
    obtain ⟨q, hq, hw⟩ := haccepts
    rwa [Option.some.inj hq]
  · intro hw
    exact ⟨_, rfl, hw⟩

end Proper

/-! ### Grammars that can be obtained -/

/-- **The grammars that can be obtained**: from a text, or from any automaton that can be
obtained. -/
inductive Obtainable : Grammar → Prop
  /-- A text is a grammar. -/
  | parse {text : String} {g : Grammar} : Grammar.parse text = .ok g → Obtainable g
  /-- A grammar is read off an automaton. -/
  | ofAutomaton {fa : Automaton} {g : Grammar} :
    fa.Obtainable → Grammar.ofAutomaton fa = .ok g → Obtainable g

theorem Obtainable.proper (h : g.Obtainable) : g.Proper := by
  cases h with
  | parse hparse => exact proper_parse hparse
  | ofAutomaton hfa hg => exact proper_ofAutomaton hfa.wellFormed hfa.named.symbol hg

/-- **The automaton of a grammar accepts the words that the grammar derives**, and no
others. -/
theorem Obtainable.accepts_iff_derives (h : g.Obtainable) (w : List Symbol) :
    (Automaton.ofDraft (.ofGrammar g)).accepts w = true ↔ g.Derives w :=
  h.proper.accepts_ofGrammar_iff

/-- In the grammar `S -> aA | bB | &`, `A -> bA | b` the marker has a column, and `B` has no
rule. -/
theorem accepts_iff_derives_ruleless :
    ∃ g, Grammar.parse "S -> aA | bB | &\nA -> bA | b" = .ok g ∧
      Symbol.epsilon ∈ g.terminals ∧ 'B' ∈ g.nonterminals ∧ g.alternatives 'B' = [] ∧
      ∀ w, (Automaton.ofDraft (.ofGrammar g)).accepts w = true ↔ g.Derives w := by
  have hparse : Grammar.parse "S -> aA | bB | &\nA -> bA | b" =
      .ok ⟨"S -> aA | bB | &\nA -> bA | b", 'S',
        [('S', [.step 'a' 'A', .step 'b' 'B', .empty]),
          ('A', [.step 'b' 'A', .terminal 'b'])]⟩ := rfl
  exact ⟨_, hparse, by decide, by decide, rfl, (Obtainable.parse hparse).accepts_iff_derives⟩

end FiniteState.Grammar
