import Mathlib.Data.Set.Card
import FiniteState.Proofs.Grammar.Canonical

/-!
# When an automaton has a grammar, and that the grammar is reduced

Only the states between the initial state and an accepting one count, the *core* of the
automaton.  Trimming leaves the core, short names turn it into letters, and there are 26 of
these.  A grammar is made if the core has no more states than that, unless all letters are
taken when the start symbol has to be a fresh one, which is when the initial state accepts
and is led back to.

In the grammar a state has a nonterminal only where some rule leads to it or away from it.
Final states without moves are dropped.  A state that can be left is reached along states
that can be left, so derivations get to its nonterminal.  It is useful, so it accepts a word
that is not empty, and its nonterminal derives that word.

## Main definitions

* `Automaton.core` — the states between the initial state and an accepting one.
* `Automaton.Moves`, `Grammar.LeadsTo` — one transition, and one step of a derivation.
* `Grammar.Reduced` — **every nonterminal of the grammar is in use**.

## Main results

* `Grammar.exists_ofTrimmed_iff`, `Grammar.isReentered_iff` — when a trimmed automaton has a
  grammar.
* `Grammar.reachable_headOf`, `Grammar.exists_derivesFrom_headOf` — derivations get to the
  nonterminals of the states that can be left, and on from there.
* `Grammar.reduced_ofTrimmed` — **the grammar of a trimmed automaton is reduced**.
* `Automaton.Obtainable.ofAutomaton_reduced` — **which automata have a grammar, and that it
  is reduced**.
-/

namespace FiniteState

open Relation

namespace Automaton

variable {fa : Automaton} {p q r : Label}

/-! ### The core of an automaton -/

/-- The states between the initial state and an accepting one. -/
def core (fa : Automaton) : Set Label := {q | fa.Reached q ∧ fa.Useful q}

/-- A transition leads from the one state to the other. -/
def Moves (fa : Automaton) (q r : Label) : Prop := ∃ s, r ∈ fa.targets q s

/-- A state is reached from the initial one, transition by transition. -/
theorem Reached.moves (h : fa.Reached q) (hp : fa.initial = some p) :
    ReflTransGen fa.Moves p q := by
  obtain ⟨p', w, hp', hpath⟩ := h
  obtain rfl := Option.some.inj (hp.symm.trans hp')
  exact exists_path_iff.1 ⟨w, hpath⟩

/-- A state from which one gets to a state that can be left can itself be left. -/
theorem WellFormed.hasOutgoing_of_moves (h : fa.WellFormed) (hr : fa.hasOutgoing r = true)
    (hmoves : ReflTransGen fa.Moves q r) : fa.hasOutgoing q = true := by
  rcases hmoves.cases_head with rfl | ⟨r', ⟨s, hr'⟩, -⟩
  · exact hr
  · exact h.hasOutgoing_iff.2 ⟨s, r', hr'⟩

/-- The initial state is in the core, if anything is. -/
theorem initial_mem_core (hp : fa.initial = some p) (hcore : fa.core.Nonempty) : p ∈ fa.core := by
  obtain ⟨q, ⟨p', w, hp', hpath⟩, huseful⟩ := hcore
  obtain rfl := Option.some.inj (hp.symm.trans hp')
  exact ⟨reached_of_initial hp, huseful.path hpath⟩

/-- The states that trimming leaves are those of the core. -/
theorem WellFormed.ncard_core (h : fa.WellFormed) : fa.core.ncard = fa.live.states.length := by
  have hcore : fa.core = fa.live.states.toFinset := by
    ext q
    rw [Finset.mem_coe, List.mem_toFinset]
    exact h.mem_states_live.symm
  rw [hcore, Set.ncard_coe_finset, List.toFinset_card_of_nodup h.live.states_nodup]

end Automaton

namespace Grammar

open Automaton

variable {g : Grammar} {fa : Automaton} {initial p q r : Label} {n : Symbol}

/-! ### Reduced grammars -/

/-- A rule leads from the one nonterminal to the other. -/
def LeadsTo (g : Grammar) (m n : Symbol) : Prop := ∃ t, .step t n ∈ g.alternatives m

/-- **Every nonterminal of the grammar is in use.**  Besides, the grammar has the form that
reading gives it, so only the start symbol derives the empty word, and nothing leads to it
then. -/
structure Reduced (g : Grammar) : Prop extends g.Canonical where
  /-- Derivations from the start symbol get to it. -/
  reachable : ∀ n ∈ g.nonterminals, ReflTransGen g.LeadsTo g.start n
  /-- It has an alternative. -/
  ruled : ∀ n ∈ g.nonterminals, g.alternatives n ≠ []
  /-- It derives a word. -/
  productive : ∀ n ∈ g.nonterminals, ∃ w, g.DerivesFrom n w

theorem DerivesFrom.alternatives_ne_nil {w : List Symbol} (h : g.DerivesFrom n w) :
    g.alternatives n ≠ [] := by
  cases h with
  | empty hp | terminal hp | step hp _ => exact List.ne_nil_of_mem hp

/-! ### When a trimmed automaton has a grammar -/

/-- Letters for the nonterminals are the only thing that can be missing. -/
theorem ofTrimmed_eq_error {cause : AutomatonError} (hg : ofTrimmed fa initial = .error cause) :
    initial ∈ fa.finals ∧ isReentered (productionsOf fa initial) (headOf initial) = true ∧
      maxNonterminals ≤ fa.states.length ∧ cause = .tooManyStates (fa.states.length + 1) := by
  simp only [ofTrimmed] at hg
  split at hg
  · cases hg
  · rename_i hfinal
    split at hg
    · rename_i hback
      split at hg
      · rename_i hmany
        exact ⟨fa.isFinal_iff.1 (by simpa using hfinal), hback, hmany, (Except.error.inj hg).symm⟩
      · cases hg
    · cases hg

theorem exists_ofTrimmed_iff : (∃ g, ofTrimmed fa initial = .ok g) ↔
    ¬ (initial ∈ fa.finals ∧ isReentered (productionsOf fa initial) (headOf initial) = true ∧
      maxNonterminals ≤ fa.states.length) := by
  constructor
  · intro hok hfull
    obtain ⟨g, hg⟩ := hok
    obtain ⟨hfinal, hback, hmany⟩ := hfull
    rcases ofTrimmed_eq_ok hg with ⟨hnot, -⟩ | ⟨-, -, hfew, -⟩ | ⟨-, hnot, -⟩
    · exact hnot hfinal
    · exact Nat.not_le_of_lt hfew hmany
    · rw [hback] at hnot
      cases hnot
  · intro hroom
    cases hg : ofTrimmed fa initial with
    | ok g => exact ⟨g, rfl⟩
    | error cause =>
      obtain ⟨hfinal, hback, hmany, -⟩ := ofTrimmed_eq_error hg
      exact absurd ⟨hfinal, hback, hmany⟩ hroom

/-! ### The nonterminals of a grammar -/

/-- A rule that takes over the alternatives of another one brings no nonterminal in but its
own. -/
theorem mem_nonterminals_cons_own {start head : Symbol}
    {rules rest : List (Symbol × List Production)} (hrest : rest ⊆ rules)
    (hn : n ∈ (ofProductions start
      ((start, (rules.lookup head).getD [] ++ [.empty]) :: rest)).nonterminals) :
    n = start ∨ n ∈ (ofProductions start rules).nonterminals := by
  obtain ⟨e, he, hn⟩ := mem_nonterminals.1 hn
  rcases List.mem_cons.1 he with rfl | he
  · rcases hn with hn | ⟨p, hp, hpn⟩
    · exact .inl hn
    · right
      obtain ⟨t, rfl⟩ := Production.nonterminal?_eq_some_iff.1 hpn
      have hown := (List.mem_append.1 hp).resolve_right (by simp)
      cases halts : rules.lookup head with
      | none => simp [halts] at hown
      | some alts =>
        rw [halts, Option.getD_some] at hown
        exact mem_nonterminals.2 ⟨_, List.mem_of_lookup_eq_some halts, .inr ⟨_, hown, hpn⟩⟩
  · exact .inr (mem_nonterminals.2 ⟨e, hrest he, hn⟩)

/-- The rules of an automaton speak of the states that can be left. -/
theorem exists_state_of_mem_productionsOf (h : fa.WellFormed) (hinitial : initial ∈ fa.states)
    {start : Symbol} (hn : n ∈ (ofProductions start (productionsOf fa initial)).nonterminals) :
    ∃ q ∈ fa.states, fa.hasOutgoing q = true ∧ headOf q = n := by
  obtain ⟨e, he, hn⟩ := mem_nonterminals.1 hn
  obtain ⟨q, hq, hne, rfl⟩ := (mem_productionsOf hinitial).1 he
  rcases hn with rfl | ⟨p, hp, hpn⟩
  · obtain ⟨p, hp⟩ := List.exists_mem_of_ne_nil _ hne
    obtain ⟨s, -, r, hr, -⟩ := mem_alternativesOf.1 hp
    exact ⟨q, hq, h.hasOutgoing_iff.2 ⟨s, r, hr⟩, rfl⟩
  · obtain ⟨t, rfl⟩ := Production.nonterminal?_eq_some_iff.1 hpn
    obtain ⟨r, hr, hout, rfl⟩ := (step_mem_alternativesOf h).1 hp
    exact ⟨r, h.target_mem hr, hout, rfl⟩

/-- **The nonterminals are the start symbol and those of the states that can be left.** -/
theorem exists_state_of_mem_nonterminals (h : fa.WellFormed) (hinitial : initial ∈ fa.states)
    (hg : ofTrimmed fa initial = .ok g) (hn : n ∈ g.nonterminals) :
    n = g.start ∨ ∃ q ∈ fa.states, fa.hasOutgoing q = true ∧ headOf q = n := by
  rcases ofTrimmed_eq_ok hg with ⟨-, rfl⟩ | ⟨-, -, -, rfl⟩ | ⟨-, -, rfl⟩
  · exact .inr (exists_state_of_mem_productionsOf h hinitial hn)
  · exact (mem_nonterminals_cons_own (fun _ he => he) hn).imp_right
      (exists_state_of_mem_productionsOf h hinitial)
  · exact (mem_nonterminals_cons_own (fun _ he => List.mem_of_mem_filter he) hn).imp_right
      (exists_state_of_mem_productionsOf h hinitial)

/-- The start symbol is that of the initial state, unless some rule leads there. -/
theorem start_ofTrimmed (hg : ofTrimmed fa initial = .ok g) :
    g.start = headOf initial ∨ isReentered (productionsOf fa initial) (headOf initial) = true := by
  rcases ofTrimmed_eq_ok hg with ⟨-, rfl⟩ | ⟨-, hback, -, -⟩ | ⟨-, -, rfl⟩
  · exact .inl rfl
  · exact .inr hback
  · exact .inl rfl

/-! ### Derivations -/

section Derivations

variable (hread : g.ReadOff fa initial) (h : fa.Trimmed) (hinitial : fa.initial = some initial)

include hread h

/-- A derivation goes along transitions to a state that can be left: all states on the way
can be left, too. -/
theorem reflTransGen_leadsTo (hq : fa.hasOutgoing q = true) (hp : p ∈ fa.states)
    (hmoves : ReflTransGen fa.Moves p q) : ReflTransGen g.LeadsTo (headOf p) (headOf q) := by
  induction hmoves using ReflTransGen.head_induction_on with
  | refl => exact .refl
  | @head p r hmove hrest ih =>
    obtain ⟨s, hr⟩ := hmove
    have hout := h.wellFormed.hasOutgoing_of_moves hq hrest
    have hstep := (step_mem_alternativesOf h.wellFormed).2 ⟨r, hr, hout, rfl⟩
    exact .head ⟨s, (hread.alternatives hp (by simp)).2 hstep⟩ (ih (h.wellFormed.target_mem hr))

/-- So does a derivation from the start symbol, if there is a transition on the way. -/
theorem reflTransGen_leadsTo_start (hq : fa.hasOutgoing q = true)
    (hmoves : TransGen fa.Moves initial q) : ReflTransGen g.LeadsTo g.start (headOf q) := by
  obtain ⟨r, ⟨s, hr⟩, hrest⟩ := TransGen.head'_iff.1 hmoves
  have hout := h.wellFormed.hasOutgoing_of_moves hq hrest
  have hstep := (step_mem_alternativesOf h.wellFormed).2 ⟨r, hr, hout, rfl⟩
  exact .head ⟨s, (hread.start (by simp)).2 hstep⟩
    (reflTransGen_leadsTo hread h hq (h.wellFormed.target_mem hr) hrest)

include hinitial

/-- **Derivations get to the nonterminals of the states that can be left.**  Where the start
symbol is a fresh one, a transition leads back to the initial state. -/
theorem reachable_headOf (hstart : g.start = headOf initial ∨ ∃ q ∈ fa.states, fa.Moves q initial)
    (hq : q ∈ fa.states) (hout : fa.hasOutgoing q = true) :
    ReflTransGen g.LeadsTo g.start (headOf q) := by
  rcases reflTransGen_iff_eq_or_transGen.1 ((h.reached hq).moves hinitial) with rfl | hmoves
  · rcases hstart with hstart | ⟨r, hr, hback⟩
    · rw [hstart]
    · have hround := TransGen.tail' ((h.reached hr).moves hinitial) hback
      exact reflTransGen_leadsTo_start hread h hout hround
  · exact reflTransGen_leadsTo_start hread h hout hmoves

omit hinitial in
/-- **The nonterminal of a state that can be left derives a word**: one that begins with a
transition. -/
theorem exists_derivesFrom_headOf (hq : q ∈ fa.states) (hout : fa.hasOutgoing q = true) :
    ∃ w, g.DerivesFrom (headOf q) w := by
  have hwf := h.wellFormed
  obtain ⟨s, r, hr⟩ := hwf.hasOutgoing_iff.1 hout
  obtain ⟨w, hw⟩ := h.useful (hwf.target_mem hr)
  have haccepts := (acceptsFrom_cons_iff h.deterministic.not_silent).2 ⟨r, hr, hw⟩
  exact ⟨s :: w, (hread.derivesFrom_iff hwf h.deterministic hq (List.cons_ne_nil s w)).2 haccepts⟩

end Derivations

section Trimmed

variable (h : fa.Trimmed) (hletters : ∀ q ∈ fa.states, q.isLetter = true)
  (hinitial : fa.initial = some initial)

include h hletters hinitial

/-- Some rule leads to the initial state iff some transition does. -/
theorem isReentered_iff :
    isReentered (productionsOf fa initial) (headOf initial) = true ↔
      ∃ q ∈ fa.states, fa.Moves q initial := by
  have hwf := h.wellFormed
  have hmem := hwf.initial_mem hinitial
  rw [isReentered_productionsOf hmem]
  constructor
  · intro hback
    obtain ⟨q, hq, t, hstep⟩ := hback
    obtain ⟨r, hr, -, heq⟩ := (step_mem_alternativesOf hwf).1 hstep
    obtain rfl := eq_of_headOf_eq (hletters _ hmem) (hletters r (hwf.target_mem hr)) heq
    exact ⟨q, hq, t, hr⟩
  · intro hback
    obtain ⟨q, hq, s, hr⟩ := hback
    -- the initial state can be left, as the state in question is reached from it
    have hround := TransGen.tail' ((h.reached hq).moves hinitial) ⟨s, hr⟩
    obtain ⟨r, ⟨t, hr'⟩, -⟩ := TransGen.head'_iff.1 hround
    have hout := hwf.hasOutgoing_iff.2 ⟨t, r, hr'⟩
    exact ⟨q, hq, s, (step_mem_alternativesOf hwf).2 ⟨initial, hr, hout, rfl⟩⟩

/-- **The grammar of a trimmed automaton is reduced.** -/
theorem reduced_ofTrimmed (hproper : g.Proper) (hg : ofTrimmed fa initial = .ok g) :
    g.Reduced := by
  have hwf := h.wellFormed
  have hmem := hwf.initial_mem hinitial
  have hread := readOff_ofTrimmed hwf hletters hmem hg
  have hstart := (start_ofTrimmed hg).imp_right (isReentered_iff h hletters hinitial).1
  have hproductive : ∀ n ∈ g.nonterminals, ∃ w, g.DerivesFrom n w := by
    intro n hn
    rcases exists_state_of_mem_nonterminals hwf hmem hg hn with rfl | ⟨q, hq, hout, rfl⟩
    · -- the start symbol derives what the initial state accepts
      obtain ⟨w, hw⟩ := h.useful hmem
      exact ⟨w, (hread.derives_iff hwf h.deterministic hmem).2 hw⟩
    · exact exists_derivesFrom_headOf hread h hq hout
  refine ⟨canonical_ofTrimmed hwf hletters hmem h.useful hproper hg, fun n hn => ?_,
    fun n hn => ?_, hproductive⟩
  · rcases exists_state_of_mem_nonterminals hwf hmem hg hn with rfl | ⟨q, hq, hout, rfl⟩
    · exact .refl
    · exact reachable_headOf hread h hinitial hstart hq hout
  · obtain ⟨w, hw⟩ := hproductive n hn
    exact hw.alternatives_ne_nil

end Trimmed

/-! ### All automata -/

theorem hasHead_of_isLetter (hq : q ∈ fa.states) (hletter : q.isLetter = true) :
    hasHead fa q = true := by
  obtain ⟨c, -, rfl⟩ := Label.eq_ofChar_of_isLetter hletter
  rw [hasHead, fa.hasState_iff.2 hq]
  simp

section Live

variable (h : fa.WellFormed) (hdet : fa.isDeterministic = true) (hp : fa.live.initial = some p)
  (hfew : fa.live.states.length ≤ maxNonterminals)

include h hp

/-- Transitions lead back to the initial state before the renaming and after it. -/
theorem exists_moves_rename_iff :
    (∃ q ∈ fa.live.rename.states, fa.live.rename.Moves q (fa.live.newName .full p)) ↔
      ∃ q ∈ fa.core, fa.Moves q p := by
  have hmem := h.live.initial_mem hp
  constructor
  · intro hback
    obtain ⟨q', hq', s, hr⟩ := hback
    obtain ⟨q, hq, rfl⟩ := mem_states_rename.1 hq'
    have hr := (h.live.mem_targets_rename hq hmem).1 hr
    exact ⟨q, h.mem_states_live.1 hq, s, h.mem_targets_of_live hr⟩
  · intro hback
    obtain ⟨q, hq, s, hr⟩ := hback
    have hq := h.mem_states_live.2 hq
    exact ⟨_, mem_states_rename.2 ⟨q, hq, rfl⟩, s,
      (h.live.mem_targets_rename hq hmem).2 ((h.mem_targets_live hq hmem).2 hr)⟩

theorem newName_mem_finals_iff :
    fa.live.newName .full p ∈ fa.live.rename.finals ↔ p ∈ fa.finals := by
  have hmem := h.live.initial_mem hp
  rw [h.live.mem_finals_rename hmem, h.mem_finals_live]
  exact and_iff_left (h.mem_states_live.1 hmem).1

include hdet hfew

/-- **A grammar is made of the core**, when its states can be named by letters. -/
theorem ofAutomaton_eq_ofTrimmed :
    ofAutomaton fa = ofTrimmed fa.live.rename (fa.live.newName .full p) := by
  have hname : fa.live.newName .full p ∈ fa.live.rename.states :=
    mem_states_rename.2 ⟨p, h.live.initial_mem hp, rfl⟩
  have hhead := hasHead_of_isLetter hname (isLetter_of_mem_states_rename h.live hfew hname)
  obtain ⟨hinitial, -⟩ := h.initial_live_eq_some.1 hp
  have hstart : fa.live.rename.initial = some (fa.live.newName .full p) := by
    rw [initial_rename, hp, Option.map_some]
  simp [ofAutomaton, hdet, hinitial, Nat.not_lt.2 hfew, hstart, hhead]

/-- **It fails only when the start symbol has to be a fresh one and all letters are taken.** -/
theorem exists_ofAutomaton_iff_room : (∃ g, ofAutomaton fa = .ok g) ↔
    ¬ (maxNonterminals ≤ fa.live.states.length ∧ p ∈ fa.finals ∧ ∃ q ∈ fa.core, fa.Moves q p) := by
  have htrimmed := (h.trimmed_live (h.isDeterministic_iff.1 hdet)).rename
  have hstart : fa.live.rename.initial = some (fa.live.newName .full p) := by
    rw [initial_rename, hp, Option.map_some]
  have hlen : fa.live.rename.states.length = fa.live.states.length := by
    rw [rename_eq, states_relabel, List.length_map]
  rw [ofAutomaton_eq_ofTrimmed h hdet hp hfew, exists_ofTrimmed_iff, newName_mem_finals_iff h hp,
    isReentered_iff htrimmed (fun q hq => isLetter_of_mem_states_rename h.live hfew hq) hstart,
    exists_moves_rename_iff h hp, hlen]
  exact not_congr (and_assoc.symm.trans and_comm)

end Live

/-- Every other failure comes before a state is looked up, so the initial state is always
found. -/
theorem ofAutomaton_ne_unknownState (h : fa.WellFormed) (l : Label) :
    ofAutomaton fa ≠ .error (.unknownState l) := by
  intro herror
  unfold ofAutomaton at herror
  split at herror
  · cases herror
  · split at herror
    · cases herror
    · dsimp only at herror
      split at herror
      · cases herror
      · rename_i hfew
        split at herror
        · cases herror
        · rename_i initial hinitial
          have hmem := h.live.rename.initial_mem hinitial
          have hletter := isLetter_of_mem_states_rename h.live (Nat.le_of_not_lt hfew) hmem
          rw [if_pos (hasHead_of_isLetter hmem hletter)] at herror
          obtain ⟨-, -, -, hcause⟩ := ofTrimmed_eq_error herror
          cases hcause

/-- **A grammar that is read off an automaton is reduced.** -/
theorem reduced_ofAutomaton (h : fa.WellFormed)
    (hsymbols : ∀ s ∈ fa.alphabet, Symbol.isTransitionSymbol s = true)
    (hg : ofAutomaton fa = .ok g) : g.Reduced := by
  have hproper := proper_ofAutomaton h hsymbols hg
  obtain ⟨hdet, -, hfew, initial, hinitial, hg⟩ := ofAutomaton_eq_ok hg
  exact reduced_ofTrimmed (h.trimmed_live (h.isDeterministic_iff.1 hdet)).rename
    (fun q hq => isLetter_of_mem_states_rename h.live hfew hq) hinitial hproper hg

end Grammar

namespace Automaton

open Grammar

variable {fa : Automaton} {g : Grammar}

namespace WellFormed

variable (h : fa.WellFormed)

include h

/-- What is left has an initial state iff the core is not empty. -/
theorem exists_initial_live_iff :
    (∃ p, fa.live.initial = some p) ↔ fa.initial.isSome = true ∧ fa.core.Nonempty := by
  constructor
  · intro hlive
    obtain ⟨p, hp⟩ := hlive
    obtain ⟨hp, hmem⟩ := h.initial_live_eq_some.1 hp
    exact ⟨Option.isSome_of_eq_some hp, p, h.mem_states_live.1 hmem⟩
  · intro hcore
    obtain ⟨hinitial, hcore⟩ := hcore
    obtain ⟨p, hp⟩ := Option.isSome_iff_exists.1 hinitial
    exact ⟨p, h.initial_live_eq_some.2 ⟨hp, h.mem_states_live.2 (initial_mem_core hp hcore)⟩⟩

/-- **Which automata have a grammar.** -/
theorem exists_ofAutomaton_iff : (∃ g, ofAutomaton fa = .ok g) ↔
    fa.isDeterministic = true ∧ fa.initial.isSome = true ∧ fa.core.Nonempty ∧
      fa.core.ncard ≤ 26 ∧
      ¬ (fa.core.ncard = 26 ∧ ∃ p, fa.initial = some p ∧ p ∈ fa.finals ∧
        ∃ q ∈ fa.core, ∃ s, p ∈ fa.targets q s) := by
  rw [h.ncard_core]
  constructor
  · intro hok
    obtain ⟨g, hg⟩ := hok
    obtain ⟨hdet, hinitial, hfew, name, hname, -⟩ := ofAutomaton_eq_ok hg
    rw [initial_rename, Option.map_eq_some_iff] at hname
    obtain ⟨p, hp, -⟩ := hname
    refine ⟨hdet, hinitial, (h.exists_initial_live_iff.1 ⟨p, hp⟩).2, hfew, fun hfull => ?_⟩
    obtain ⟨hmany, p', hp', hfinal, hback⟩ := hfull
    obtain rfl := Option.some.inj (hp'.symm.trans (h.initial_live_eq_some.1 hp).1)
    exact (exists_ofAutomaton_iff_room h hdet hp hfew).1 ⟨g, hg⟩ ⟨hmany.ge, hfinal, hback⟩
  · intro hcore
    obtain ⟨hdet, hinitial, hcore, hfew, hroom⟩ := hcore
    obtain ⟨p, hp⟩ := h.exists_initial_live_iff.2 ⟨hinitial, hcore⟩
    refine (exists_ofAutomaton_iff_room h hdet hp hfew).2 fun hfull => hroom ?_
    obtain ⟨hmany, hfinal, hback⟩ := hfull
    exact ⟨le_antisymm hfew hmany, p, (h.initial_live_eq_some.1 hp).1, hfinal, hback⟩

end WellFormed

/-- **An automaton has a grammar exactly when it can have one, and the grammar is reduced.**
It has to be deterministic, with an initial state and a core of 1 to 26 states; with 26 of
them there is no letter left for a fresh start symbol, which is needed when the initial state
accepts and a transition inside the core leads back to it.  The initial state is always
found. -/
theorem Obtainable.ofAutomaton_reduced (h : fa.Obtainable) :
    ((∃ g, Grammar.ofAutomaton fa = .ok g) ↔
      fa.isDeterministic = true ∧ fa.initial.isSome = true ∧ fa.core.Nonempty ∧
        fa.core.ncard ≤ 26 ∧
        ¬ (fa.core.ncard = 26 ∧ ∃ p, fa.initial = some p ∧ p ∈ fa.finals ∧
          ∃ q ∈ fa.core, ∃ s, p ∈ fa.targets q s)) ∧
      (∀ l, Grammar.ofAutomaton fa ≠ .error (.unknownState l)) ∧
      ∀ g, Grammar.ofAutomaton fa = .ok g → g.Reduced :=
  ⟨h.wellFormed.exists_ofAutomaton_iff, ofAutomaton_ne_unknownState h.wellFormed,
    fun _ => reduced_ofAutomaton h.wellFormed h.named.symbol⟩

/-- The only state of the automaton of `a*` accepts and is led back to.  Its grammar has two
nonterminals, the start symbol being a fresh one. -/
theorem ofAutomaton_reduced_star :
    (Regex.PositionTable.ofExpr (.star (.letter 'a'))).automaton.Obtainable ∧
      (Regex.PositionTable.ofExpr (.star (.letter 'a'))).automaton.core.Nonempty ∧
      ∃ g, g.Reduced ∧ g.start = 'B' ∧ g.nonterminals = ['B', 'A'] ∧
        Grammar.ofAutomaton (Regex.PositionTable.ofExpr (.star (.letter 'a'))).automaton =
          .ok g := by
  have hparse : Regex.parse ['a', '*'] = .ok (.star (.letter 'a')) := rfl
  have hfa := obtainable_automaton hparse
  have hg : Grammar.ofAutomaton (Regex.PositionTable.ofExpr (.star (.letter 'a'))).automaton =
      .ok ⟨"B -> a | aA | &\nA -> a | aA\n", 'B',
        [('B', [.terminal 'a', .step 'a' 'A', .empty]),
          ('A', [.terminal 'a', .step 'a' 'A'])]⟩ := rfl
  obtain ⟨hiff, -, hreduced⟩ := hfa.ofAutomaton_reduced
  exact ⟨hfa, (hiff.1 ⟨_, hg⟩).2.2.1, _, hreduced _ hg, rfl, rfl, hg⟩

end Automaton

end FiniteState
