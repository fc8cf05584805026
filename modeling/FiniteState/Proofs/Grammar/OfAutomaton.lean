import FiniteState.Grammar.Conversion
import FiniteState.Proofs.Automaton.Reduced
import FiniteState.Proofs.Grammar.Proper

/-!
# Grammars of automata are proper

The rules of a grammar that is read off an automaton stand for its transitions.  The
states have short names by then, which begin with an uppercase letter, and no
transition of a deterministic automaton carries the marker of the empty word.  Only
the start symbol derives the empty word, in a rule that is added when the initial
state accepts.  Otherwise the initial state has a rule because it reaches an accepting
state in some other way.

## Main results

* `Grammar.mem_alternativesOf`, `Grammar.mem_productionsOf` — the rules of an automaton.
* `Grammar.ofTrimmed_eq_ok`, `Grammar.ofAutomaton_eq_ok` — what a grammar of an automaton
  can be.
* `Grammar.proper_ofAutomaton` — **a grammar that is read off an automaton is proper**.
-/

namespace FiniteState.Grammar

open Automaton

variable {g : Grammar} {fa : Automaton} {initial q : Label} {p : Production}

/-! ### Heads -/

theorem isNonterminal_headOf_of_isLetter (h : q.isLetter = true) :
    Symbol.isNonterminal (headOf q) = true := by
  unfold Label.isLetter at h
  split at h
  · rename_i c hc
    rw [headOf, hc]
    exact h
  · cases h

theorem isNonterminal_headOf_nth (i : ℕ) : Symbol.isNonterminal (headOf (Label.nth i)) = true := by
  have hhead : (Label.nth i).toList.head? = some (Label.letter i) := by
    rw [Label.toList_nth]
    rfl
  rw [headOf, hhead]
  exact Label.isUpper_letter i

/-- The shortest names begin with a letter. -/
theorem isNonterminal_headOf_rename (hq : q ∈ fa.rename.states) :
    Symbol.isNonterminal (headOf q) = true := by
  rw [rename_eq, states_relabel] at hq
  obtain ⟨p, hp, rfl⟩ := List.mem_map.1 hq
  rcases (LabelPool.of_mem_names (mem_names .full hp)).2 with hletter | ⟨i, hi⟩
  · exact isNonterminal_headOf_of_isLetter hletter
  · rw [hi]
    exact isNonterminal_headOf_nth i

/-! ### The rules of an automaton -/

/-- An alternative of a state stands for a transition. -/
theorem mem_alternativesOf : p ∈ alternativesOf fa q ↔
    ∃ s ∈ fa.alphabet, ∃ r ∈ fa.targets q s,
      r ∈ fa.finals ∧ p = .terminal s ∨ fa.hasOutgoing r = true ∧ p = .step s (headOf r) := by
  have hon : ∀ s, p ∈ alternativesOn fa q s ↔ ∃ r ∈ fa.targets q s,
      r ∈ fa.finals ∧ p = .terminal s ∨ fa.hasOutgoing r = true ∧ p = .step s (headOf r) := by
    intro s
    rw [alternativesOn, List.mem_flatMap]
    refine exists_congr fun r => and_congr Iff.rfl ?_
    rw [List.mem_append, List.mem_ite_nil_right, List.mem_ite_nil_right, List.mem_singleton,
      List.mem_singleton, isFinal_iff]
  simp only [alternativesOf, List.mem_eraseDups, List.mem_flatMap, hon]

/-- A rule of an automaton has the alternatives of a state. -/
theorem mem_productionsOf (hinitial : initial ∈ fa.states) {e : Symbol × List Production} :
    e ∈ productionsOf fa initial ↔
      ∃ q ∈ fa.states, alternativesOf fa q ≠ [] ∧ e = (headOf q, alternativesOf fa q) := by
  have hmem : ∀ q, q ∈ initial :: fa.states.filter (· != initial) ↔ q ∈ fa.states := by
    intro q
    by_cases hq : q = initial
    · simp [hq, hinitial]
    · simp [hq]
  rw [productionsOf, List.mem_filterMap]
  refine exists_congr fun q => and_congr (hmem q) ?_
  -- a state without alternatives has no rule
  split
  · rename_i hnil
    simp [hnil]
  · rename_i hne
    exact ⟨fun heq => ⟨hne, (Option.some.inj heq).symm⟩, fun heq => congrArg some heq.2.symm⟩

/-- A transition to a useful state is worth an alternative: that state accepts, or it can
be left. -/
theorem alternativesOf_ne_nil_of_mem_targets (h : fa.WellFormed)
    (huseful : ∀ {q}, q ∈ fa.states → fa.Useful q) {s : Symbol} {r : Label}
    (hr : r ∈ fa.targets q s) : alternativesOf fa q ≠ [] := by
  by_cases hfinal : r ∈ fa.finals
  · have hmem := mem_alternativesOf.2 ⟨s, h.symbol_mem hr, r, hr, .inl ⟨hfinal, rfl⟩⟩
    exact List.ne_nil_of_mem hmem
  · have hout : fa.hasOutgoing r = true :=
      h.hasOutgoing_iff.2 ((huseful (h.target_mem hr)).exists_target hfinal)
    have hmem := mem_alternativesOf.2 ⟨s, h.symbol_mem hr, r, hr, .inr ⟨hout, rfl⟩⟩
    exact List.ne_nil_of_mem hmem

/-- A useful state that does not accept has an alternative. -/
theorem alternativesOf_ne_nil (h : fa.WellFormed) (huseful : ∀ {q}, q ∈ fa.states → fa.Useful q)
    (hq : q ∈ fa.states) (hfinal : q ∉ fa.finals) : alternativesOf fa q ≠ [] := by
  obtain ⟨s, r, hr⟩ := (huseful hq).exists_target hfinal
  exact alternativesOf_ne_nil_of_mem_targets h huseful hr

/-! ### The rule of the start symbol -/

/-- **The grammars that are read off an automaton**, by whether its initial state accepts
and is led back to. -/
theorem ofTrimmed_eq_ok (hg : ofTrimmed fa initial = .ok g) :
    (initial ∉ fa.finals ∧ g = ofProductions (headOf initial) (productionsOf fa initial)) ∨
    (initial ∈ fa.finals ∧ isReentered (productionsOf fa initial) (headOf initial) = true ∧
      fa.states.length < maxNonterminals ∧
      g = ofProductions (headOf (LabelPool.excluding fa.states).take.1)
        ((headOf (LabelPool.excluding fa.states).take.1,
          ((productionsOf fa initial).lookup (headOf initial)).getD [] ++ [.empty]) ::
            productionsOf fa initial)) ∨
    (initial ∈ fa.finals ∧ isReentered (productionsOf fa initial) (headOf initial) = false ∧
      g = ofProductions (headOf initial)
        ((headOf initial,
          ((productionsOf fa initial).lookup (headOf initial)).getD [] ++ [.empty]) ::
            (productionsOf fa initial).filter fun e => e.1 != headOf initial)) := by
  simp only [ofTrimmed] at hg
  by_cases hfinal : initial ∈ fa.finals
  · rw [fa.isFinal_iff.2 hfinal, Bool.not_true, if_neg Bool.false_ne_true] at hg
    by_cases hback : isReentered (productionsOf fa initial) (headOf initial) = true
    · rw [if_pos hback] at hg
      by_cases hmany : fa.states.length ≥ maxNonterminals
      · rw [if_pos hmany] at hg
        cases hg
      · rw [if_neg hmany] at hg
        exact .inr (.inl ⟨hfinal, hback, Nat.lt_of_not_le hmany, (Except.ok.inj hg).symm⟩)
    · rw [if_neg hback] at hg
      exact .inr (.inr ⟨hfinal, Bool.eq_false_of_not_eq_true hback, (Except.ok.inj hg).symm⟩)
  · have hnot : fa.isFinal initial = false := by
      rw [← Bool.not_eq_true, fa.isFinal_iff]
      exact hfinal
    rw [hnot, Bool.not_false, if_pos rfl] at hg
    exact .inl ⟨hfinal, (Except.ok.inj hg).symm⟩

/-- Proper rules, of which none but a new one derives the empty word, make up a proper
grammar.  The new rule has the alternatives of another nonterminal, too. -/
theorem proper_cons_own {rules rest : List (Symbol × List Production)} {start head : Symbol}
    (hrules : ∀ e ∈ rules, ProperRule e.1 e.2 ∧ .empty ∉ e.2) (hrest : rest ⊆ rules)
    (hstart : Symbol.isNonterminal start = true) :
    (ofProductions start
      ((start, (rules.lookup head).getD [] ++ [.empty]) :: rest)).Proper := by
  have hown : ∀ p ∈ (rules.lookup head).getD [] ++ [.empty], p.Proper := by
    intro p hp
    rcases List.mem_append.1 hp with hp | hp
    · cases halts : rules.lookup head with
      | none => simp [halts] at hp
      | some alts =>
        rw [halts, Option.getD_some] at hp
        exact (hrules _ (List.mem_of_lookup_eq_some halts)).1.alternatives p hp
    · rw [List.mem_singleton.1 hp]
      trivial
  refine ⟨fun e he => ?_, mem_nonterminals.2 ⟨_, List.mem_cons_self, .inl rfl⟩, ?_⟩
  · rcases List.mem_cons.1 he with rfl | he
    · exact ⟨hstart, hown⟩
    · exact (hrules e (hrest he)).1
  · intro e he hempty
    rcases List.mem_cons.1 he with rfl | he
    · rfl
    · exact absurd hempty (hrules e (hrest he)).2

section Rules

variable (h : fa.WellFormed) (hdet : fa.Deterministic)
  (hsymbols : ∀ s ∈ fa.alphabet, Symbol.isTransitionSymbol s = true)
  (hheads : ∀ q ∈ fa.states, Symbol.isNonterminal (headOf q) = true)
  (hinitial : initial ∈ fa.states)

include h hdet hsymbols hheads hinitial

/-- The rules of a deterministic automaton are proper and do not derive the empty
word. -/
theorem properRule_productionsOf :
    ∀ e ∈ productionsOf fa initial, ProperRule e.1 e.2 ∧ .empty ∉ e.2 := by
  intro e he
  obtain ⟨q, hq, -, rfl⟩ := (mem_productionsOf hinitial).1 he
  refine ⟨⟨hheads q hq, fun p hp => ?_⟩, fun hempty => ?_⟩
  · obtain ⟨s, hs, r, hr, hp⟩ := mem_alternativesOf.1 hp
    have hterminal : Symbol.isTerminal s = true := by
      -- the marker may have a column, but no transition
      refine (Symbol.isTransitionSymbol_iff.1 (hsymbols s hs)).resolve_right fun heq => ?_
      exact hdet.not_silent (heq ▸ hr)
    rcases hp with ⟨-, rfl⟩ | ⟨-, rfl⟩
    · exact hterminal
    · exact ⟨hterminal, hheads r (h.target_mem hr)⟩
  · obtain ⟨s, -, r, -, ⟨-, heq⟩ | ⟨-, heq⟩⟩ := mem_alternativesOf.1 hempty
    · cases heq
    · cases heq

theorem proper_ofTrimmed (huseful : ∀ {q}, q ∈ fa.states → fa.Useful q)
    (hg : ofTrimmed fa initial = .ok g) : g.Proper := by
  have hrules := properRule_productionsOf h hdet hsymbols hheads hinitial
  rcases ofTrimmed_eq_ok hg with ⟨hfinal, rfl⟩ | ⟨-, -, -, rfl⟩ | ⟨-, -, rfl⟩
  · -- the initial state does not accept, so it has a rule of its own
    have hne := alternativesOf_ne_nil h huseful hinitial hfinal
    have hmem := (mem_productionsOf hinitial).2 ⟨initial, hinitial, hne, rfl⟩
    exact ⟨fun e he => (hrules e he).1, mem_nonterminals.2 ⟨_, hmem, .inl rfl⟩,
      fun e he hempty => absurd hempty (hrules e he).2⟩
  · exact proper_cons_own hrules (fun _ he => he) (isNonterminal_headOf_nth _)
  · exact proper_cons_own hrules (fun _ he => List.mem_of_mem_filter he) (hheads initial hinitial)

end Rules

/-- What is needed for a grammar to be read off an automaton. -/
theorem ofAutomaton_eq_ok (hg : ofAutomaton fa = .ok g) :
    fa.isDeterministic = true ∧ fa.initial.isSome = true ∧
      fa.live.states.length ≤ maxNonterminals ∧
      ∃ initial, fa.live.rename.initial = some initial ∧
        ofTrimmed fa.live.rename initial = .ok g := by
  unfold ofAutomaton at hg
  split at hg
  · cases hg
  · rename_i hdet
    split at hg
    · cases hg
    · rename_i hinitial
      dsimp only at hg
      split at hg
      · cases hg
      · rename_i hfew
        split at hg
        · cases hg
        · rename_i initial hlive
          split at hg
          · exact ⟨by simpa using hdet, by simpa [Option.isSome_iff_ne_none] using hinitial,
              Nat.le_of_not_lt hfew, initial, hlive, hg⟩
          · cases hg

/-- **A grammar that is read off an automaton is proper**, if the automaton carries
terminals and the marker only. -/
theorem proper_ofAutomaton (h : fa.WellFormed)
    (hsymbols : ∀ s ∈ fa.alphabet, Symbol.isTransitionSymbol s = true)
    (hg : ofAutomaton fa = .ok g) : g.Proper := by
  obtain ⟨hflag, -, -, initial, hinitial, hg⟩ := ofAutomaton_eq_ok hg
  have hnamed := (h.trimmed_live (h.isDeterministic_iff.1 hflag)).rename
  refine proper_ofTrimmed hnamed.wellFormed hnamed.deterministic (fun s hs => ?_)
    (fun q hq => isNonterminal_headOf_rename hq) (hnamed.wellFormed.initial_mem hinitial)
    hnamed.useful hg
  -- trimming and renaming bring no symbols in
  exact hsymbols s (mem_alphabet_of_live hs)

end FiniteState.Grammar
