import FiniteState.Proofs.Grammar.Language
import FiniteState.Proofs.Grammar.Parse

/-!
# Grammars in the form that reading gives them

A proper grammar may still be written in ways that no text is read as: it may have two
entries for a nonterminal, or one without alternatives, or the start symbol may come
last.  A grammar that is read has none of this, and neither has a grammar that is made
from an automaton.  Such a grammar is as its text says, which is why it can be written
and read again without a change.

## Main definitions

* `Grammar.Canonical` — **the grammar has the form that reading gives it**.

## Main results

* `Grammar.canonical_parse`, `Grammar.canonical_ofAutomaton` — the grammars of texts and of
  automata have it.
* `Grammar.Obtainable.canonical` — **so have all grammars that can be obtained**.
-/

namespace FiniteState.Grammar

open Automaton

variable {g : Grammar} {fa : Automaton} {initial : Label} {text : String} {start n : Symbol}
  {rules : List Rule} {p : Production}

/-- **The grammar has the form that reading gives it.** -/
structure Canonical (g : Grammar) : Prop extends g.Proper where
  /-- A nonterminal has one entry. -/
  heads_nodup : (g.productions.map Prod.fst).Nodup
  /-- No alternative is repeated. -/
  alternatives_nodup : ∀ e ∈ g.productions, e.2.Nodup
  /-- An entry has alternatives. -/
  alternatives_ne_nil : ∀ e ∈ g.productions, e.2 ≠ []
  /-- The start symbol comes first. -/
  start_first : ∃ alternatives rest, g.productions = (g.start, alternatives) :: rest
  /-- Nothing leads to a start symbol that derives the empty word. -/
  not_reentered : (∃ e ∈ g.productions, .empty ∈ e.2) →
    ∀ e ∈ g.productions, ∀ t, .step t g.start ∉ e.2

/-! ### Grammars of texts -/

theorem map_fst_gather (rules : List Rule) :
    (gather rules).map Prod.fst = (rules.map Rule.head).eraseDups := by
  rw [gather, List.map_map]
  exact List.map_id _

/-- The alternatives of a nonterminal are those of its rules. -/
theorem mem_alternatives_of_mem_gather {e : Symbol × List Production} (he : e ∈ gather rules) :
    p ∈ e.2 ↔ ∃ rule ∈ rules, rule.head = e.1 ∧ p ∈ rule.alternatives := by
  obtain ⟨head, -, rfl⟩ := List.mem_map.1 he
  simp [List.mem_eraseDups, and_assoc]

/-- An entry has a rule. -/
theorem exists_rule_of_mem_gather {e : Symbol × List Production} (he : e ∈ gather rules) :
    ∃ rule ∈ rules, rule.head = e.1 := by
  have hhead : e.1 ∈ (rules.map Rule.head).eraseDups := by
    rw [← map_fst_gather]
    exact List.mem_map.2 ⟨e, he, rfl⟩
  exact List.mem_map.1 (List.mem_eraseDups.1 hhead)

/-- A rule that a text says has alternatives. -/
theorem Says.alternatives_ne_nil (h : Says text rules) {rule : Rule} (hrule : rule ∈ rules) :
    rule.alternatives ≠ [] := by
  have hlength := h.length_eq
  obtain ⟨i, hi, rfl⟩ := List.mem_iff_getElem.1 hrule
  obtain ⟨-, hstates⟩ := h.get (by omega) hi
  exact hstates.1

/-- **A grammar that is read from a text has the form that reading gives it.** -/
theorem canonical_parse (h : parse text = .ok g) : g.Canonical := by
  obtain ⟨first, rest, hread, hepsilon, rfl⟩ := parse_eq_ok_iff.1 h
  refine ⟨proper_parse h, ?_, fun e he => ?_, fun e he hnil => ?_, ?_, fun hnullable => ?_⟩
  · show ((gather (first :: rest)).map Prod.fst).Nodup
    rw [map_fst_gather]
    exact List.nodup_eraseDups _
  · obtain ⟨head, -, rfl⟩ := List.mem_map.1 he
    exact List.nodup_eraseDups _
  · obtain ⟨rule, hrule, hhead⟩ := exists_rule_of_mem_gather he
    obtain ⟨p, hp⟩ := List.exists_mem_of_ne_nil _ (hread.alternatives_ne_nil hrule)
    have hmem := (mem_alternatives_of_mem_gather he).2 ⟨rule, hrule, hhead, hp⟩
    rw [hnil] at hmem
    exact absurd hmem List.not_mem_nil
  · simp only [gather, List.map_cons, List.eraseDups_cons]
    exact ⟨_, _, rfl⟩
  · obtain ⟨e, he, hempty⟩ := hnullable
    obtain ⟨rule, hrule, -, hp⟩ := (mem_alternatives_of_mem_gather he).1 hempty
    intro e' he' t hstep
    obtain ⟨rule', hrule', -, hstep⟩ := (mem_alternatives_of_mem_gather he').1 hstep
    have hstart := hepsilon.only_start rule hrule hp
    exact hepsilon.not_reentered ⟨rule, hrule, hstart, hp⟩ rule' hrule' t hstep

/-! ### Grammars of automata -/

/-- The rules of an automaton are those of the states that have alternatives. -/
theorem productionsOf_eq (fa : Automaton) (initial : Label) :
    productionsOf fa initial =
      ((initial :: fa.states.filter (· != initial)).filter fun q =>
        !(alternativesOf fa q).isEmpty).map fun q => (headOf q, alternativesOf fa q) := by
  rw [productionsOf, ← List.filterMap_eq_map, List.filterMap_filter]
  refine List.filterMap_congr fun q _ => ?_
  cases hq : alternativesOf fa q with
  | nil => rfl
  | cons p rest => simp [hq]

section Rules

variable (h : fa.WellFormed) (hletters : ∀ q ∈ fa.states, q.isLetter = true)
  (hinitial : initial ∈ fa.states)

include h hletters hinitial

/-- No nonterminal has two rules. -/
theorem nodup_heads_productionsOf : ((productionsOf fa initial).map Prod.fst).Nodup := by
  have hmem : ∀ q ∈ initial :: fa.states.filter (· != initial), q ∈ fa.states := by
    intro q hq
    rcases List.mem_cons.1 hq with rfl | hq
    · exact hinitial
    · exact List.mem_of_mem_filter hq
  have hnd : (initial :: fa.states.filter (· != initial)).Nodup := by
    refine List.nodup_cons.2 ⟨by simp, h.states_nodup.filter _⟩
  rw [productionsOf_eq, List.map_map]
  refine (hnd.filter _).map_on fun q hq r hr heq => ?_
  have hq' := hletters q (hmem q (List.mem_of_mem_filter hq))
  have hr' := hletters r (hmem r (List.mem_of_mem_filter hr))
  exact eq_of_headOf_eq hq' hr' heq

omit h hletters in
/-- The alternatives of a rule are some, and none is repeated. -/
theorem nodup_alternatives_productionsOf :
    ∀ e ∈ productionsOf fa initial, e.2.Nodup ∧ e.2 ≠ [] := by
  intro e he
  obtain ⟨q, -, hne, rfl⟩ := (mem_productionsOf hinitial).1 he
  exact ⟨List.nodup_eraseDups _, hne⟩

/-- Rules of an automaton, behind those of a start symbol that nothing leads to.  The start
symbol has the alternatives of the initial state and derives the empty word. -/
theorem canonical_cons_own {rest : List (Symbol × List Production)}
    (hproper : (ofProductions start
      ((start, alternativesOf fa initial ++ [.empty]) :: rest)).Proper)
    (hrest : rest.Sublist (productionsOf fa initial)) (hfresh : start ∉ rest.map Prod.fst)
    (hback : isReentered (productionsOf fa initial) start = false) :
    (ofProductions start ((start, alternativesOf fa initial ++ [.empty]) :: rest)).Canonical := by
  have hrules := nodup_alternatives_productionsOf hinitial
  have hsteps : ∀ q ∈ fa.states, ∀ t, .step t start ∉ alternativesOf fa q := by
    intro q hq t hstep
    rw [(isReentered_productionsOf hinitial).2 ⟨q, hq, t, hstep⟩] at hback
    cases hback
  refine ⟨hproper, ?_, fun e he => ?_, fun e he => ?_, ⟨_, _, rfl⟩, fun _ e he t hstep => ?_⟩
  · have hnd := nodup_heads_productionsOf h hletters hinitial
    exact List.nodup_cons.2 ⟨hfresh, (hrest.map Prod.fst).nodup hnd⟩
  · rcases List.mem_cons.1 he with rfl | he
    · rw [← List.concat_eq_append]
      exact (List.nodup_eraseDups _).concat empty_notMem_alternativesOf
    · exact (hrules e (hrest.subset he)).1
  · rcases List.mem_cons.1 he with rfl | he
    · simp
    · exact (hrules e (hrest.subset he)).2
  · rcases List.mem_cons.1 he with rfl | he
    · rcases List.mem_append.1 hstep with hstep | hstep
      · exact hsteps initial hinitial t hstep
      · cases List.mem_singleton.1 hstep
    · obtain ⟨q, hq, -, rfl⟩ := (mem_productionsOf hinitial).1 (hrest.subset he)
      exact hsteps q hq t hstep

/-- No state leads to a fresh start symbol. -/
theorem isReentered_take (hfew : fa.states.length < maxNonterminals) :
    isReentered (productionsOf fa initial) (headOf (LabelPool.excluding fa.states).take.1) =
      false := by
  rw [← Bool.not_eq_true, isReentered_productionsOf hinitial]
  intro hback
  obtain ⟨q, -, t, hstep⟩ := hback
  obtain ⟨r, hr, -, heq⟩ := (step_mem_alternativesOf h).1 hstep
  exact headOf_take_ne hletters hfew (h.target_mem hr) heq.symm

theorem canonical_ofTrimmed (huseful : ∀ {q}, q ∈ fa.states → fa.Useful q) (hproper : g.Proper)
    (hg : ofTrimmed fa initial = .ok g) : g.Canonical := by
  have hown := lookup_productionsOf hletters hinitial hinitial
  rcases ofTrimmed_eq_ok hg with ⟨hfinal, rfl⟩ | ⟨-, -, hfew, rfl⟩ | ⟨-, hback, rfl⟩
  · -- the initial state does not accept, so it has alternatives and comes first
    have hrules := nodup_alternatives_productionsOf hinitial
    have hne := alternativesOf_ne_nil h huseful hinitial hfinal
    refine ⟨hproper, nodup_heads_productionsOf h hletters hinitial,
      fun e he => (hrules e he).1, fun e he => (hrules e he).2, ?_, fun hnullable => ?_⟩
    · have hkept : (!(alternativesOf fa initial).isEmpty) = true := by simpa using hne
      show ∃ alternatives rest, productionsOf fa initial = (headOf initial, alternatives) :: rest
      rw [productionsOf_eq, List.filter_cons, if_pos hkept, List.map_cons]
      exact ⟨_, _, rfl⟩
    · obtain ⟨e, he, hempty⟩ := hnullable
      obtain ⟨q, -, -, rfl⟩ := (mem_productionsOf hinitial).1 he
      exact absurd hempty empty_notMem_alternativesOf
  · rw [hown] at hproper ⊢
    refine canonical_cons_own h hletters hinitial hproper (List.Sublist.refl _) (fun hmem => ?_)
      (isReentered_take h hletters hinitial hfew)
    obtain ⟨e, he, heq⟩ := List.mem_map.1 hmem
    obtain ⟨q, hq, -, rfl⟩ := (mem_productionsOf hinitial).1 he
    exact headOf_take_ne hletters hfew hq heq
  · rw [hown] at hproper ⊢
    refine canonical_cons_own h hletters hinitial hproper List.filter_sublist (fun hmem => ?_) hback
    obtain ⟨e, he, heq⟩ := List.mem_map.1 hmem
    simpa [heq] using List.of_mem_filter he

end Rules

/-- **A grammar that is read off an automaton has the form that reading gives it.** -/
theorem canonical_ofAutomaton (h : fa.WellFormed)
    (hsymbols : ∀ s ∈ fa.alphabet, Symbol.isTransitionSymbol s = true)
    (hg : ofAutomaton fa = .ok g) : g.Canonical := by
  have hproper := proper_ofAutomaton h hsymbols hg
  obtain ⟨hflag, -, hfew, initial, hinitial, hg⟩ := ofAutomaton_eq_ok hg
  have htrimmed := (h.trimmed_live (h.isDeterministic_iff.1 hflag)).rename
  exact canonical_ofTrimmed htrimmed.wellFormed
    (fun q hq => isLetter_of_mem_states_rename h.live hfew hq)
    (htrimmed.wellFormed.initial_mem hinitial) htrimmed.useful hproper hg

/-- **Every grammar that can be obtained has the form that reading gives it.** -/
theorem Obtainable.canonical (h : g.Obtainable) : g.Canonical := by
  cases h with
  | parse hparse => exact canonical_parse hparse
  | ofAutomaton hfa hg => exact canonical_ofAutomaton hfa.wellFormed hfa.named.symbol hg

end FiniteState.Grammar
