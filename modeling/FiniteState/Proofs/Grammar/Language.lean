import FiniteState.Proofs.Automaton.Language
import FiniteState.Proofs.Grammar.Derivation
import FiniteState.Proofs.Label.Letters

/-!
# The grammar of an automaton has its words

The states that are left of the automaton have single letters as their names, so each
has a nonterminal of its own.  A nonterminal derives the words that its state accepts,
the empty word apart.  Where a word ends in an accepting state, the last transition
stands for a terminal; where it goes on, the state can be left and the transition
stands for a terminal with a nonterminal.

The empty word is the matter of the start symbol alone.  It is derived in an
alternative that is added to those of the initial state, which is harmless as long as
no rule leads to the start symbol; otherwise a fresh start symbol takes over the
alternatives of the initial state and the new one.

## Main definitions

* `Grammar.ReadOff` — the alternatives of a grammar stand for the transitions of an
  automaton.

## Main results

* `Grammar.ReadOff.derivesFrom_iff`, `Grammar.ReadOff.derives_iff` — a nonterminal derives
  the words of its state, and the start symbol the empty word, too.
* `Grammar.readOff_ofTrimmed` — the grammar of an automaton stands for its transitions.
* `Grammar.derives_iff_of_ofAutomaton`, `Grammar.ofAutomaton_language` — **the grammar of an
  automaton derives the words that the automaton accepts**.
-/

namespace FiniteState.Grammar

open Automaton

variable {g : Grammar} {fa : Automaton} {initial q r : Label} {p : Production} {n t : Symbol}
  {w : List Symbol}

/-! ### Nonterminals of states -/

@[simp] theorem headOf_ofChar (c : Char) : headOf (Label.ofChar c) = c := by
  simp [headOf]

/-- Letters have different nonterminals. -/
theorem eq_of_headOf_eq (hq : q.isLetter = true) (hr : r.isLetter = true)
    (h : headOf q = headOf r) : q = r := by
  obtain ⟨c, -, rfl⟩ := Label.eq_ofChar_of_isLetter hq
  obtain ⟨d, -, rfl⟩ := Label.eq_ofChar_of_isLetter hr
  rw [headOf_ofChar, headOf_ofChar] at h
  rw [h]

/-- The shortest names of few states are letters. -/
theorem isLetter_of_mem_states_rename (h : fa.WellFormed)
    (hfew : fa.states.length ≤ maxNonterminals) (hq : q ∈ fa.rename.states) :
    q.isLetter = true := by
  rw [rename_eq, states_relabel] at hq
  obtain ⟨p, hp, rfl⟩ := List.mem_map.1 hq
  exact LabelPool.isLetter_of_mem_names h.states_nodup hfew (mem_names .full hp)

/-- The fresh start symbol is the nonterminal of no state. -/
theorem headOf_take_ne (hletters : ∀ q ∈ fa.states, q.isLetter = true)
    (hfew : fa.states.length < maxNonterminals) (hq : q ∈ fa.states) :
    headOf q ≠ headOf (LabelPool.excluding fa.states).take.1 := by
  intro heq
  have hletter : (LabelPool.excluding fa.states).take.1.isLetter = true := by
    refine LabelPool.isLetter_take ?_
    rw [LabelPool.length_used_excluding]
    exact hfew
  have hq' := eq_of_headOf_eq (hletters q hq) hletter heq
  refine LabelPool.take_notMem_used (LabelPool.excluding fa.states) ?_
  rw [← hq']
  exact LabelPool.mem_used_excluding.2 hq

/-! ### Alternatives of states -/

theorem empty_notMem_alternativesOf : .empty ∉ alternativesOf fa q := by
  intro h
  obtain ⟨s, -, r, -, ⟨-, heq⟩ | ⟨-, heq⟩⟩ := mem_alternativesOf.1 h
  · cases heq
  · cases heq

/-- A terminal alone stands for a transition to an accepting state. -/
theorem terminal_mem_alternativesOf (h : fa.WellFormed) :
    .terminal t ∈ alternativesOf fa q ↔ ∃ r ∈ fa.targets q t, r ∈ fa.finals := by
  rw [mem_alternativesOf]
  constructor
  · intro hp
    obtain ⟨s, -, r, hr, ⟨hfinal, heq⟩ | ⟨-, heq⟩⟩ := hp
    · cases heq
      exact ⟨r, hr, hfinal⟩
    · cases heq
  · intro hp
    obtain ⟨r, hr, hfinal⟩ := hp
    exact ⟨t, h.symbol_mem hr, r, hr, .inl ⟨hfinal, rfl⟩⟩

/-- A terminal with a nonterminal stands for a transition to a state that can be left. -/
theorem step_mem_alternativesOf (h : fa.WellFormed) :
    .step t n ∈ alternativesOf fa q ↔
      ∃ r ∈ fa.targets q t, fa.hasOutgoing r = true ∧ n = headOf r := by
  rw [mem_alternativesOf]
  constructor
  · intro hp
    obtain ⟨s, -, r, hr, ⟨-, heq⟩ | ⟨hout, heq⟩⟩ := hp
    · cases heq
    · cases heq
      exact ⟨r, hr, hout, rfl⟩
  · intro hp
    obtain ⟨r, hr, hout, rfl⟩ := hp
    exact ⟨t, h.symbol_mem hr, r, hr, .inr ⟨hout, rfl⟩⟩

/-! ### Grammars that stand for an automaton -/

/-- **The alternatives of the grammar stand for the transitions of the automaton.** -/
structure ReadOff (g : Grammar) (fa : Automaton) (initial : Label) : Prop where
  /-- A nonterminal has the alternatives of its state, the empty word apart. -/
  alternatives : ∀ {q p}, q ∈ fa.states → p ≠ .empty →
    (p ∈ g.alternatives (headOf q) ↔ p ∈ alternativesOf fa q)
  /-- No transition leads to a nonterminal that derives the empty word. -/
  not_reentered : ∀ {q t n}, q ∈ fa.states → .step t n ∈ alternativesOf fa q →
    .empty ∉ g.alternatives n
  /-- The start symbol has the alternatives of the initial state, the empty word apart. -/
  start : ∀ {p}, p ≠ .empty → (p ∈ g.alternatives g.start ↔ p ∈ alternativesOf fa initial)
  /-- The start symbol derives the empty word if the initial state accepts. -/
  start_empty : .empty ∈ g.alternatives g.start ↔ initial ∈ fa.finals

namespace ReadOff

variable (hread : g.ReadOff fa initial) (h : fa.WellFormed) (hdet : fa.Deterministic)

include hread h hdet

/-- A nonterminal with the alternatives of a state derives the words of the state that
begin with a symbol, if the nonterminals behind the first symbol derive theirs. -/
theorem derivesFrom_cons_iff_of_alternatives (hq : q ∈ fa.states)
    (halts : ∀ {p}, p ≠ .empty → (p ∈ g.alternatives n ↔ p ∈ alternativesOf fa q))
    (hrest : ∀ r ∈ fa.states, w ≠ [] → (g.DerivesFrom (headOf r) w ↔ fa.AcceptsFrom r w)) :
    g.DerivesFrom n (t :: w) ↔ fa.AcceptsFrom q (t :: w) := by
  rw [derivesFrom_cons_iff, acceptsFrom_cons_iff hdet.not_silent, halts (by simp),
    terminal_mem_alternativesOf h]
  constructor
  · intro hderives
    rcases hderives with ⟨⟨r, hr, hfinal⟩, rfl⟩ | ⟨m, hstep, hw⟩
    · exact ⟨r, hr, acceptsFrom_nil_of_mem hfinal⟩
    · rw [halts (by simp)] at hstep
      have hne : w ≠ [] := by
        rintro rfl
        exact hread.not_reentered hq hstep (derivesFrom_nil_iff.1 hw)
      obtain ⟨r, hr, -, rfl⟩ := (step_mem_alternativesOf h).1 hstep
      exact ⟨r, hr, (hrest r (h.target_mem hr) hne).1 hw⟩
  · intro haccepts
    obtain ⟨r, hr, hw⟩ := haccepts
    -- a word that ends here stands for a terminal alone
    by_cases hne : w = []
    · subst hne
      exact .inl ⟨⟨r, hr, (acceptsFrom_nil_iff hdet.not_silent).1 hw⟩, rfl⟩
    · have hout : fa.hasOutgoing r = true := by
        obtain ⟨s, w, rfl⟩ := List.exists_cons_of_ne_nil hne
        obtain ⟨r', hr', -⟩ := (acceptsFrom_cons_iff hdet.not_silent).1 hw
        exact h.hasOutgoing_iff.2 ⟨s, r', hr'⟩
      have hstep := (step_mem_alternativesOf h).2 ⟨r, hr, hout, rfl⟩
      exact .inr ⟨headOf r, (halts (by simp)).2 hstep, (hrest r (h.target_mem hr) hne).2 hw⟩

/-- **A nonterminal derives the words that its state accepts**, the empty word apart.  The
induction is on the word. -/
theorem derivesFrom_iff (hq : q ∈ fa.states) (hw : w ≠ []) :
    g.DerivesFrom (headOf q) w ↔ fa.AcceptsFrom q w := by
  induction w generalizing q with
  | nil => exact absurd rfl hw
  | cons t w ih =>
    exact hread.derivesFrom_cons_iff_of_alternatives h hdet hq (hread.alternatives hq)
      fun r hr hne => ih hr hne

/-- **The grammar derives the words that the automaton accepts.** -/
theorem derives_iff (hinitial : initial ∈ fa.states) :
    g.Derives w ↔ fa.AcceptsFrom initial w := by
  cases w with
  | nil =>
    rw [Derives, derivesFrom_nil_iff, hread.start_empty, acceptsFrom_nil_iff hdet.not_silent]
  | cons t w =>
    exact hread.derivesFrom_cons_iff_of_alternatives h hdet hinitial hread.start
      fun r hr hne => hread.derivesFrom_iff h hdet hr hne

end ReadOff

/-! ### Grammars that are read off -/

theorem alternatives_ofProductions (start : Symbol) (rules : List (Symbol × List Production)) :
    (ofProductions start rules).alternatives n = (rules.lookup n).getD [] := rfl

/-- The rule of a start symbol that comes first is found. -/
theorem mem_alternatives_cons_start {start : Symbol} {own : List Production}
    {rest : List (Symbol × List Production)} :
    p ∈ (ofProductions start ((start, own ++ [.empty]) :: rest)).alternatives start ↔
      p ∈ own ∨ p = .empty := by
  rw [alternatives_ofProductions, List.lookup_cons, beq_self_eq_true]
  simp

/-- It hides no rule of another nonterminal. -/
theorem alternatives_cons_of_ne {start : Symbol} {own : List Production}
    {rest : List (Symbol × List Production)} (hne : n ≠ start) :
    (ofProductions start ((start, own) :: rest)).alternatives n = (rest.lookup n).getD [] := by
  rw [alternatives_ofProductions, List.lookup_cons, beq_eq_false_iff_ne.2 hne]

section Letters

variable (h : fa.WellFormed) (hletters : ∀ q ∈ fa.states, q.isLetter = true)
  (hinitial : initial ∈ fa.states)

include hletters hinitial

/-- The alternatives of a nonterminal are those of its state. -/
theorem lookup_productionsOf (hq : q ∈ fa.states) :
    ((productionsOf fa initial).lookup (headOf q)).getD [] = alternativesOf fa q := by
  cases hlookup : (productionsOf fa initial).lookup (headOf q) with
  | none =>
    by_contra hne
    have hmem := (mem_productionsOf hinitial).2 ⟨q, hq, fun heq => hne heq.symm, rfl⟩
    obtain ⟨alts, halts⟩ := List.exists_lookup_eq_some (List.mem_map.2 ⟨_, hmem, rfl⟩)
    rw [hlookup] at halts
    cases halts
  | some alts =>
    obtain ⟨r, hr, -, heq⟩ :=
      (mem_productionsOf hinitial).1 (List.mem_of_lookup_eq_some hlookup)
    obtain ⟨hhead, rfl⟩ := Prod.mk.inj heq
    rw [eq_of_headOf_eq (hletters q hq) (hletters r hr) hhead, Option.getD_some]

omit hletters in
theorem isReentered_productionsOf : isReentered (productionsOf fa initial) n = true ↔
    ∃ q ∈ fa.states, ∃ t, .step t n ∈ alternativesOf fa q := by
  simp only [isReentered, List.any_eq_true, beq_iff_eq, Production.nonterminal?_eq_some_iff]
  constructor
  · intro hany
    obtain ⟨e, he, p, hp, t, rfl⟩ := hany
    obtain ⟨q, hq, -, rfl⟩ := (mem_productionsOf hinitial).1 he
    exact ⟨q, hq, t, hp⟩
  · intro hany
    obtain ⟨q, hq, t, hp⟩ := hany
    have hmem := (mem_productionsOf hinitial).2 ⟨q, hq, List.ne_nil_of_mem hp, rfl⟩
    exact ⟨_, hmem, _, hp, t, rfl⟩

include h

/-- **The grammar of an automaton stands for its transitions**, whether its initial state
accepts or not, and whether it is led back to or not. -/
theorem readOff_ofTrimmed (hg : ofTrimmed fa initial = .ok g) : g.ReadOff fa initial := by
  have hown := lookup_productionsOf hletters hinitial hinitial
  rcases ofTrimmed_eq_ok hg with ⟨hfinal, rfl⟩ | ⟨hfinal, -, hfew, rfl⟩ | ⟨hfinal, hback, rfl⟩
  · -- there is no rule but those for the transitions
    have halts : ∀ q ∈ fa.states,
        (ofProductions (headOf initial) (productionsOf fa initial)).alternatives (headOf q) =
          alternativesOf fa q := fun q hq => lookup_productionsOf hletters hinitial hq
    have hstart := halts initial hinitial
    refine ⟨fun hq _ => by rw [halts _ hq], fun {q t n} hq hstep => ?_,
      fun _ => Iff.of_eq (congrArg _ hstart), ?_⟩
    · obtain ⟨r, hr, -, rfl⟩ := (step_mem_alternativesOf h).1 hstep
      rw [halts r (h.target_mem hr)]
      exact empty_notMem_alternativesOf
    · exact iff_of_false (fun hempty => empty_notMem_alternativesOf (hstart ▸ hempty)) hfinal
  · -- the start symbol is a fresh one, and no rule leads to it
    rw [hown]
    have halts : ∀ q ∈ fa.states,
        (ofProductions (headOf (LabelPool.excluding fa.states).take.1)
          ((headOf (LabelPool.excluding fa.states).take.1, alternativesOf fa initial ++ [.empty]) ::
            productionsOf fa initial)).alternatives (headOf q) = alternativesOf fa q := by
      intro q hq
      rw [alternatives_cons_of_ne (headOf_take_ne hletters hfew hq)]
      exact lookup_productionsOf hletters hinitial hq
    refine ⟨fun hq _ => by rw [halts _ hq], fun {q t n} hq hstep => ?_,
      fun hne => mem_alternatives_cons_start.trans (or_iff_left hne),
      iff_of_true (mem_alternatives_cons_start.2 (.inr rfl)) hfinal⟩
    obtain ⟨r, hr, -, rfl⟩ := (step_mem_alternativesOf h).1 hstep
    rw [halts r (h.target_mem hr)]
    exact empty_notMem_alternativesOf
  · -- the rule of the start symbol stands for the initial state and the empty word
    rw [hown]
    have halts : ∀ q ∈ fa.states, headOf q ≠ headOf initial →
        (ofProductions (headOf initial)
          ((headOf initial, alternativesOf fa initial ++ [.empty]) ::
            (productionsOf fa initial).filter fun e => e.1 != headOf initial)).alternatives
              (headOf q) = alternativesOf fa q := by
      intro q hq hne
      rw [alternatives_cons_of_ne hne, List.lookup_filter_keys (· != headOf initial),
        if_pos (bne_iff_ne.2 hne)]
      exact lookup_productionsOf hletters hinitial hq
    refine ⟨fun {q p} hq hne => ?_, fun {q t n} hq hstep => ?_,
      fun hne => mem_alternatives_cons_start.trans (or_iff_left hne),
      iff_of_true (mem_alternatives_cons_start.2 (.inr rfl)) hfinal⟩
    · by_cases heq : headOf q = headOf initial
      · rw [eq_of_headOf_eq (hletters q hq) (hletters initial hinitial) heq]
        exact mem_alternatives_cons_start.trans (or_iff_left hne)
      · rw [halts q hq heq]
    · obtain ⟨r, hr, -, rfl⟩ := (step_mem_alternativesOf h).1 hstep
      -- no rule leads back to the initial state
      have hne : headOf r ≠ headOf initial := by
        intro heq
        rw [heq] at hstep
        rw [(isReentered_productionsOf hinitial).2 ⟨q, hq, t, hstep⟩] at hback
        cases hback
      rw [halts r (h.target_mem hr) hne]
      exact empty_notMem_alternativesOf

end Letters

/-- The grammar of a well-formed automaton derives the words that the automaton accepts.
Neither trimming nor renaming changes these. -/
theorem derives_iff_of_ofAutomaton (h : fa.WellFormed) (hg : ofAutomaton fa = .ok g) :
    g.Derives w ↔ fa.accepts w = true := by
  obtain ⟨hflag, -, hfew, initial, hinitial, hg⟩ := ofAutomaton_eq_ok hg
  have htrimmed := (h.trimmed_live (h.isDeterministic_iff.1 hflag)).rename
  have hwf := htrimmed.wellFormed
  have hletters : ∀ q ∈ fa.live.rename.states, q.isLetter = true := fun q hq =>
    isLetter_of_mem_states_rename h.live hfew hq
  have hmem := hwf.initial_mem hinitial
  have hread := readOff_ofTrimmed hwf hletters hmem hg
  calc g.Derives w
      ↔ fa.live.rename.AcceptsFrom initial w := hread.derives_iff hwf htrimmed.deterministic hmem
    _ ↔ fa.live.rename.accepts w = true := by simp [hwf.accepts_iff, hinitial]
    _ ↔ fa.accepts w = true := by rw [h.live.accepts_rename, h.accepts_live]

/-- **The grammar that is read off an automaton derives the words that the automaton
accepts**, and the automaton of the grammar accepts these words again. -/
theorem ofAutomaton_language (hfa : fa.Obtainable) (hg : ofAutomaton fa = .ok g)
    (w : List Symbol) :
    (g.Derives w ↔ fa.accepts w = true) ∧
      (Automaton.ofDraft (.ofGrammar g)).accepts w = fa.accepts w := by
  have hderives := derives_iff_of_ofAutomaton (w := w) hfa.wellFormed hg
  have hproper := (Obtainable.ofAutomaton hfa hg).proper
  exact ⟨hderives, Bool.eq_iff_iff.2 (hproper.accepts_ofGrammar_iff.trans hderives)⟩

/-- The only state of the automaton of `a*` accepts and is led back to, so the grammar
has a fresh start symbol. -/
theorem ofAutomaton_language_fresh :
    (Regex.PositionTable.ofExpr (.star (.letter 'a'))).automaton.Obtainable ∧
      ∃ g, ofAutomaton (Regex.PositionTable.ofExpr (.star (.letter 'a'))).automaton = .ok g ∧
        g.text = "B -> a | aA | &\nA -> a | aA\n" ∧
        ∀ w, (g.Derives w ↔
            (Regex.PositionTable.ofExpr (.star (.letter 'a'))).automaton.accepts w = true) ∧
          (Automaton.ofDraft (.ofGrammar g)).accepts w =
            (Regex.PositionTable.ofExpr (.star (.letter 'a'))).automaton.accepts w := by
  have hparse : Regex.parse ['a', '*'] = .ok (.star (.letter 'a')) := rfl
  have hfa := obtainable_automaton hparse
  have hg : ofAutomaton (Regex.PositionTable.ofExpr (.star (.letter 'a'))).automaton =
      .ok ⟨"B -> a | aA | &\nA -> a | aA\n", 'B',
        [('B', [.terminal 'a', .step 'a' 'A', .empty]),
          ('A', [.terminal 'a', .step 'a' 'A'])]⟩ := rfl
  exact ⟨hfa, _, hg, rfl, ofAutomaton_language hfa hg⟩

end FiniteState.Grammar
