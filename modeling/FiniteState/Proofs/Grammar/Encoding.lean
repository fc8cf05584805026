import FiniteState.Proofs.Automaton.Same
import FiniteState.Proofs.Grammar.Canonical

/-!
# The automaton of a grammar tells the grammar

When a grammar is encoded as an automaton, alternatives of three kinds share one table.  A
terminal alone is a transition to the sentinel, a terminal with a nonterminal one to the state
of that nonterminal, and the empty word is no transition at all but the mark of an accepting
state.  No nonterminal is named like the sentinel, so the kinds do not mix, and the alternatives
can be read off the automaton again.  Nonterminals without alternatives are seen as states, and
symbols as columns.

So two grammars have the same automaton exactly when they differ in nothing but the order of
their rules and symbols, and in their texts.

## Main definitions

* `Grammar.SameRules` — two grammars have the same rules and symbols, in whatever order.
* `Automaton.Encodes` — the automaton encodes an alternative of a nonterminal.

## Main results

* `Grammar.Proper.mem_alternatives_iff` — **the alternatives are those that the automaton
  encodes**.
* `Grammar.Canonical.same_iff` — the comparison of grammars decides whether texts and rules
  are the same.
* `Grammar.Obtainable.same_ofGrammar_iff` — **grammars have the same automaton iff they have
  the same rules**.
-/

namespace FiniteState

/-- The automaton encodes the alternative of the nonterminal. -/
def Automaton.Encodes (fa : Automaton) (n : Symbol) : Production → Prop
  | .empty => Label.ofChar n ∈ fa.finals
  | .terminal t => Label.sentinel ∈ fa.targets (Label.ofChar n) t
  | .step t m => Symbol.isNonterminal m = true ∧ Label.ofChar m ∈ fa.targets (Label.ofChar n) t

namespace Grammar

/-- **The grammars have the same rules and symbols**, in whatever order.  The texts that they
were read from do not count. -/
structure SameRules (g h : Grammar) : Prop where
  /-- They have the same start symbol. -/
  start : g.start = h.start
  /-- They have the same nonterminals. -/
  nonterminals : ∀ n, n ∈ g.nonterminals ↔ n ∈ h.nonterminals
  /-- They have the same terminals, and both the marker or neither. -/
  terminals : ∀ t, t ∈ g.terminals ↔ t ∈ h.terminals
  /-- The same nonterminals have rules. -/
  heads : ∀ n, n ∈ g.productions.map Prod.fst ↔ n ∈ h.productions.map Prod.fst
  /-- Each nonterminal has the same alternatives. -/
  alternatives : ∀ n p, p ∈ g.alternatives n ↔ p ∈ h.alternatives n

variable {g h : Grammar} {n t : Symbol} {p : Production} {q : Label} {s : Symbol} {c : Cell}

theorem mem_nonterminals_of_mem_alternatives (hp : p ∈ g.alternatives n) :
    n ∈ g.nonterminals := by
  obtain ⟨alts, halts, -⟩ := mem_alternatives hp
  exact mem_nonterminals.2 ⟨_, halts, .inl rfl⟩

theorem mem_heads_of_mem_alternatives (hp : p ∈ g.alternatives n) :
    n ∈ g.productions.map Prod.fst := by
  obtain ⟨alts, halts, -⟩ := mem_alternatives hp
  exact List.mem_map.2 ⟨_, halts, rfl⟩

theorem mem_finals_ofGrammar : q ∈ (Automaton.ofGrammar g).finals ↔
    q = Label.sentinel ∨ .empty ∈ g.alternatives g.start ∧ q = Label.ofChar g.start := by
  unfold Automaton.ofGrammar
  rw [List.mem_cons, derivesEmpty]
  refine or_congr_right ?_
  split
  · rename_i hempty
    rw [List.mem_singleton, and_iff_right (List.contains_iff_mem.1 hempty)]
  · rename_i hempty
    exact iff_of_false List.not_mem_nil fun hq => hempty (List.contains_iff_mem.2 hq.1)

/-- No cell of the automaton holds a rejected text. -/
theorem rejected_ofGrammar (hc : (Automaton.ofGrammar g).cell? q s = some c) :
    c.rejected = none := by
  obtain ⟨row, hrow, hcell⟩ := Automaton.cell?_eq_some_iff.1 hc
  have hcell := List.mem_of_lookup_eq_some hcell
  rcases List.mem_append.1 (List.mem_of_lookup_eq_some hrow) with hrow | hrow
  · obtain ⟨n, -, heq⟩ := List.mem_map.1 hrow
    cases heq
    obtain ⟨t, -, heq⟩ := List.mem_map.1 hcell
    cases heq
    rfl
  · obtain ⟨n, -, heq⟩ := List.mem_map.1 hrow
    cases heq
    obtain ⟨t, -, heq⟩ := List.mem_map.1 hcell
    cases heq
    rfl

/-! ### Reading the grammar off its automaton -/

namespace Proper

section Reading

variable (hg : g.Proper)

include hg

theorem mem_nonterminals_iff : n ∈ g.nonterminals ↔
    Symbol.isNonterminal n = true ∧ Label.ofChar n ∈ (Automaton.ofGrammar g).states := by
  rw [mem_states_ofGrammar]
  constructor
  · intro hn
    exact ⟨hg.isNonterminal hn, .inl ⟨n, hn, rfl⟩⟩
  · rintro ⟨hn, ⟨m, hm, heq⟩ | heq⟩
    · rwa [Label.ofChar_injective heq]
    · exact absurd heq (ofChar_ne_sentinel hn)

/-- A state whose nonterminal has an alternative encoded is that of a nonterminal of the
grammar. -/
theorem mem_nonterminals_of_encodes (hn : Symbol.isNonterminal n = true)
    (hp : (Automaton.ofGrammar g).Encodes n p) : n ∈ g.nonterminals := by
  refine hg.mem_nonterminals_iff.2 ⟨hn, ?_⟩
  cases p with
  | empty => exact hg.wellFormed.final_mem hp
  | terminal t => exact Automaton.mem_states_of_mem_targets _ hp
  | step t m => exact Automaton.mem_states_of_mem_targets _ hp.2

/-- **The alternatives of a nonterminal are those that the automaton encodes.** -/
theorem mem_alternatives_iff : p ∈ g.alternatives n ↔
    Symbol.isNonterminal n = true ∧ (Automaton.ofGrammar g).Encodes n p := by
  have key : n ∈ g.nonterminals →
      (p ∈ g.alternatives n ↔ (Automaton.ofGrammar g).Encodes n p) := by
    intro hn
    cases p with
    | empty => exact (hg.ofChar_mem_finals hn).symm
    | terminal t =>
      refine Iff.trans ?_ (hg.mem_targets_ofGrammar hn).symm
      constructor
      · intro hterminal
        exact .inl ⟨hterminal, rfl⟩
      · rintro (⟨hterminal, -⟩ | ⟨m, hstep, heq⟩)
        · exact hterminal
        · have hm := hg.isNonterminal (mem_nonterminals_of_step hstep)
          exact absurd heq.symm (ofChar_ne_sentinel hm)
    | step t m =>
      constructor
      · intro hstep
        exact ⟨hg.isNonterminal (mem_nonterminals_of_step hstep),
          (hg.mem_targets_ofGrammar hn).2 (.inr ⟨m, hstep, rfl⟩)⟩
      · rintro ⟨hm, hr⟩
        rcases (hg.mem_targets_ofGrammar hn).1 hr with ⟨-, heq⟩ | ⟨m', hstep, heq⟩
        · exact absurd heq (ofChar_ne_sentinel hm)
        · rwa [Label.ofChar_injective heq]
  constructor
  · intro hp
    have hn := mem_nonterminals_of_mem_alternatives hp
    exact ⟨hg.isNonterminal hn, (key hn).1 hp⟩
  · rintro ⟨hn, hp⟩
    exact (key (hg.mem_nonterminals_of_encodes hn hp)).2 hp

end Reading

/-- Grammars with the same alternatives and nonterminals have the same transitions. -/
theorem targets_ofGrammar_eq (hg : g.Proper) (hh : h.Proper) (hsame : g.SameRules h) :
    (Automaton.ofGrammar g).targets q s = (Automaton.ofGrammar h).targets q s := by
  refine LabelSet.ext fun r => ?_
  by_cases hq : ∃ n ∈ g.nonterminals, q = Label.ofChar n
  · obtain ⟨n, hn, rfl⟩ := hq
    rw [hg.mem_targets_ofGrammar hn, hh.mem_targets_ofGrammar ((hsame.nonterminals n).1 hn)]
    simp only [hsame.alternatives]
  · -- any other state is the sentinel, which is not left
    have hnone : ∀ {k : Grammar}, k.Proper → (∀ n, n ∈ g.nonterminals ↔ n ∈ k.nonterminals) →
        r ∉ (Automaton.ofGrammar k).targets q s := by
      intro k hk hnonterminals hr
      rcases mem_states_ofGrammar.1 (Automaton.mem_states_of_mem_targets _ hr) with
        ⟨n, hn, rfl⟩ | rfl
      · exact hq ⟨n, (hnonterminals n).2 hn, rfl⟩
      · rw [hk.targets_sentinel] at hr
        exact LabelSet.notMem_empty r hr
    exact iff_of_false (hnone hg fun _ => .rfl) (hnone hh hsame.nonterminals)

/-- Grammars with the same rules have automata all of whose views agree. -/
theorem agrees_ofGrammar (hg : g.Proper) (hh : h.Proper) (hsame : g.SameRules h) :
    (Automaton.ofGrammar g).Agrees (Automaton.ofGrammar h) where
  states q := by simp only [mem_states_ofGrammar, hsame.nonterminals]
  alphabet t := hsame.terminals t
  cells q s := by
    have hcell : (∃ c, (Automaton.ofGrammar g).cell? q s = some c) ↔
        ∃ d, (Automaton.ofGrammar h).cell? q s = some d := by
      rw [hg.wellFormed.exists_cell_iff, hh.wellFormed.exists_cell_iff]
      simp only [mem_states_ofGrammar, hsame.nonterminals]
      exact and_congr_right' (hsame.terminals s)
    cases hc : (Automaton.ofGrammar g).cell? q s with
    | none =>
      rw [eq_comm, Option.eq_none_iff_forall_ne_some]
      intro d hd
      obtain ⟨c, hc'⟩ := hcell.2 ⟨d, hd⟩
      rw [hc] at hc'
      cases hc'
    | some c =>
      obtain ⟨d, hd⟩ := hcell.1 ⟨c, hc⟩
      -- neither cell holds a rejected text, so the cells are their targets
      have htargets := hg.targets_ofGrammar_eq hh hsame (q := q) (s := s)
      rw [Automaton.targets_of_cell _ hc, Automaton.targets_of_cell _ hd] at htargets
      rw [hd]
      obtain ⟨targets, rejected⟩ := c
      obtain ⟨targets', rejected'⟩ := d
      obtain rfl : rejected = none := rejected_ofGrammar hc
      obtain rfl : rejected' = none := rejected_ofGrammar hd
      obtain rfl : targets = targets' := htargets
      rfl
  initial := congrArg (fun n => some (Label.ofChar n)) hsame.start
  finals q := by simp only [mem_finals_ofGrammar, hsame.start, hsame.alternatives]
  determinized := rfl

end Proper

/-! ### Grammars in canonical form -/

namespace Canonical

/-- The nonterminals that have a rule are those that have an alternative. -/
theorem mem_heads_iff (hg : g.Canonical) :
    n ∈ g.productions.map Prod.fst ↔ ∃ p, p ∈ g.alternatives n := by
  constructor
  · intro hn
    obtain ⟨e, he, rfl⟩ := List.mem_map.1 hn
    obtain ⟨p, hp⟩ := List.exists_mem_of_ne_nil _ (hg.alternatives_ne_nil e he)
    refine ⟨p, ?_⟩
    rwa [alternatives, List.lookup_eq_some_of_mem hg.heads_nodup he, Option.getD_some]
  · rintro ⟨p, hp⟩
    exact mem_heads_of_mem_alternatives hp

/-- Grammars whose automata agree have the same rules. -/
theorem sameRules_of_agrees (hg : g.Canonical) (hh : h.Canonical)
    (hagrees : (Automaton.ofGrammar g).Agrees (Automaton.ofGrammar h)) : g.SameRules h := by
  have htargets : ∀ q s, (Automaton.ofGrammar g).targets q s =
      (Automaton.ofGrammar h).targets q s := by
    intro q s
    unfold Automaton.targets
    rw [hagrees.cells]
  have hencodes : ∀ n p, (Automaton.ofGrammar g).Encodes n p ↔
      (Automaton.ofGrammar h).Encodes n p := by
    intro n p
    cases p with
    | empty => exact hagrees.finals _
    | terminal t => simp only [Automaton.Encodes, htargets]
    | step t m => simp only [Automaton.Encodes, htargets]
  have halternatives : ∀ n p, p ∈ g.alternatives n ↔ p ∈ h.alternatives n := by
    intro n p
    rw [hg.mem_alternatives_iff, hh.mem_alternatives_iff, hencodes]
  refine ⟨Label.ofChar_injective (Option.some.inj hagrees.initial), fun n => ?_,
    hagrees.alphabet, fun n => ?_, halternatives⟩
  · rw [hg.mem_nonterminals_iff, hh.mem_nonterminals_iff, hagrees.states]
  · rw [hg.mem_heads_iff, hh.mem_heads_iff]
    simp only [halternatives]

/-- **The comparison of grammars decides whether texts and rules are the same.** -/
theorem same_iff (hg : g.Canonical) : g.same h = true ↔ g.text = h.text ∧ g.SameRules h := by
  have hlookup : ∀ {k : Grammar} {n alts}, k.productions.lookup n = some alts →
      k.alternatives n = alts := by
    intro k n alts halts
    rw [Grammar.alternatives, halts, Option.getD_some]
  simp only [same, Bool.and_eq_true, beq_iff_eq, Automaton.sameMembers_iff,
    Automaton.sameEntries_iff hg.heads_nodup]
  constructor
  · rintro ⟨⟨⟨⟨htext, hstart⟩, hnonterminals⟩, hterminals⟩, hheads, hentries⟩
    refine ⟨htext, hstart, hnonterminals, hterminals, hheads, fun n p => ?_⟩
    by_cases hn : n ∈ g.productions.map Prod.fst
    · obtain ⟨x, hx⟩ := List.exists_lookup_eq_some hn
      obtain ⟨y, hy⟩ := List.exists_lookup_eq_some ((hheads n).1 hn)
      rw [hlookup hx, hlookup hy]
      exact hentries n x y hx hy p
    · -- without a rule there are no alternatives on either side
      exact iff_of_false (fun hp => hn (mem_heads_of_mem_alternatives hp)) fun hp =>
        hn ((hheads n).2 (mem_heads_of_mem_alternatives hp))
  · rintro ⟨htext, hsame⟩
    refine ⟨⟨⟨⟨htext, hsame.start⟩, hsame.nonterminals⟩, hsame.terminals⟩, hsame.heads, ?_⟩
    intro n x y hx hy p
    rw [← hlookup hx, ← hlookup hy]
    exact hsame.alternatives n p

end Canonical

/-! ### Grammars that can be obtained -/

/-- **Grammars have the same automaton iff they have the same rules**, up to the order of
insertion on both sides.  So they are the same grammar iff their texts and their automata are
the same. -/
theorem Obtainable.same_ofGrammar_iff (hg : g.Obtainable) (hh : h.Obtainable) :
    ((Automaton.ofDraft (.ofGrammar g)).same (Automaton.ofDraft (.ofGrammar h)) = true ↔
        g.SameRules h) ∧
      (g.same h = true ↔ g.text = h.text ∧
        (Automaton.ofDraft (.ofGrammar g)).same (Automaton.ofDraft (.ofGrammar h)) = true) := by
  have hsame : (Automaton.ofDraft (.ofGrammar g)).same (Automaton.ofDraft (.ofGrammar h)) = true ↔
      g.SameRules h :=
    (hg.proper.wellFormed.same_iff hh.proper.wellFormed).trans
      ⟨hg.canonical.sameRules_of_agrees hh.canonical, hg.proper.agrees_ofGrammar hh.proper⟩
  refine ⟨hsame, ?_⟩
  rw [hg.canonical.same_iff, hsame]

/-- Two texts give the rules in a different order, and a third one gives `A` a rule, from which
no word is derived.  The first two have the same automaton and the third has another one. -/
theorem same_ofGrammar_iff_reordered :
    ∃ g h k, Grammar.parse "S -> aA | bS | a" = .ok g ∧
      Grammar.parse "S -> a\nS -> bS\nS -> aA" = .ok h ∧
      Grammar.parse "S -> aA | bS | a\nA -> bA" = .ok k ∧
      (Automaton.ofDraft (.ofGrammar g)).same (Automaton.ofDraft (.ofGrammar h)) = true ∧
      (Automaton.ofDraft (.ofGrammar g)).same (Automaton.ofDraft (.ofGrammar k)) = false ∧
      g.SameRules h ∧ ¬ g.SameRules k := by
  have hg : Grammar.parse "S -> aA | bS | a" = .ok ⟨"S -> aA | bS | a", 'S',
    [('S', [.step 'a' 'A', .step 'b' 'S', .terminal 'a'])]⟩ := rfl
  have hh : Grammar.parse "S -> a\nS -> bS\nS -> aA" = .ok ⟨"S -> a\nS -> bS\nS -> aA", 'S',
    [('S', [.terminal 'a', .step 'b' 'S', .step 'a' 'A'])]⟩ := rfl
  have hk : Grammar.parse "S -> aA | bS | a\nA -> bA" = .ok ⟨"S -> aA | bS | a\nA -> bA", 'S',
    [('S', [.step 'a' 'A', .step 'b' 'S', .terminal 'a']), ('A', [.step 'b' 'A'])]⟩ := rfl
  have hequal := ((Obtainable.parse hg).same_ofGrammar_iff (.parse hh)).1
  have hdiffer := ((Obtainable.parse hg).same_ofGrammar_iff (.parse hk)).1
  refine ⟨_, _, _, hg, hh, hk, by decide +kernel, by decide +kernel, ?_, ?_⟩
  · exact hequal.1 (by decide +kernel)
  · rw [← hdiffer]
    decide +kernel

end Grammar

end FiniteState
