import FiniteState.Proofs.Automaton.Intersection
import FiniteState.Proofs.Automaton.Obtainable
import FiniteState.Proofs.Automaton.Union

/-!
# Languages of the automata that can be obtained

The constructions are correct for well-formed automata, and every automaton that
can be obtained is well formed.  Together this says what a user can rely on,
without any condition on the tables.

## Main results

* `Obtainable.determinize_language` — **determinization keeps the language**.
* `Obtainable.exists_minimize_language` — **minimization succeeds, keeps the language
  and leaves only states in use**.
* `Obtainable.exists_minimize_canonical` — **minimization yields one automaton for
  each language, up to the names of its states, and none is smaller**.
* `Obtainable.exists_union_language` — **the union succeeds and accepts the words of
  either operand**.
* `Obtainable.exists_intersection_pairs` — **the intersection succeeds, accepts the words
  of both operands and has a state for each pair that they reach together**.
-/

namespace FiniteState.Automaton

variable {fa fb : Automaton}

/-- What is compiled from a text can be obtained. -/
theorem obtainable_automaton {text : List Char} {e : Regex.Expr Symbol}
    (h : Regex.parse text = .ok e) : (Regex.PositionTable.ofExpr e).automaton.Obtainable :=
  .compile (Regex.compile_eq_ok.2 ⟨e, h, rfl⟩)

/-! ### Determinization -/

/-- **Determinization keeps the language.** -/
theorem Obtainable.determinize_language (h : fa.Obtainable) (w : List Symbol) :
    fa.determinize.accepts w = fa.accepts w :=
  h.wellFormed.accepts_determinize

/-- The automaton of the grammar `S -> aS | a` has a choice on its only symbol. -/
theorem determinize_language_choice :
    (ofDraft (.ofText "S -> aS | a")).Obtainable ∧
      (ofDraft (.ofText "S -> aS | a")).determinize.accepts ['a', 'a'] =
        (ofDraft (.ofText "S -> aS | a")).accepts ['a', 'a'] :=
  ⟨.ofText _, (Obtainable.ofText _).determinize_language _⟩

/-! ### Minimization -/

/-- **Minimization succeeds, keeps the language and leaves only states that are
reached and useful.** -/
theorem Obtainable.exists_minimize_language (h : fa.Obtainable)
    (hflag : fa.determinized = true) :
    ∃ m, fa.minimize = .ok m ∧ (∀ w, m.accepts w = fa.accepts w) ∧
      ∀ q ∈ m.states, m.Reached q ∧ m.Useful q := by
  obtain ⟨m, hm, hreduced, -, hlang⟩ := h.wellFormed.exists_minimize hflag
  exact ⟨m, hm, hlang, fun q hq => ⟨hreduced.reached hq, hreduced.useful hq⟩⟩

/-- The automaton of `a*` is flagged as determinized. -/
theorem exists_minimize_language_star :
    (Regex.PositionTable.ofExpr (.star (.letter 'a'))).automaton.determinized = true ∧
      ∃ m, (Regex.PositionTable.ofExpr (.star (.letter 'a'))).automaton.minimize = .ok m ∧
        (∀ w, m.accepts w =
          (Regex.PositionTable.ofExpr (.star (.letter 'a'))).automaton.accepts w) ∧
        ∀ q ∈ m.states, m.Reached q ∧ m.Useful q := by
  have hparse : Regex.parse ['a', '*'] = .ok (.star (.letter 'a')) := rfl
  exact ⟨rfl, (obtainable_automaton hparse).exists_minimize_language rfl⟩

/-- **Minimization yields one automaton for each language**: the results for two
automata that accept the same words have the same symbols and correspond state by
state, and the result for the one has no more states than the other had. -/
theorem Obtainable.exists_minimize_canonical (ha : fa.Obtainable) (hb : fb.Obtainable)
    (hflaga : fa.determinized = true) (hflagb : fb.determinized = true)
    (hlang : ∀ w, fa.accepts w = fb.accepts w) :
    ∃ m n, fa.minimize = .ok m ∧ fb.minimize = .ok n ∧
      (∀ s, s ∈ m.alphabet ↔ s ∈ n.alphabet) ∧ (∃ f, m.Isomorphism n f) ∧
      m.states.length ≤ fb.states.length := by
  obtain ⟨m, hm, hreduced, -, hlangm⟩ := ha.wellFormed.exists_minimize hflaga
  obtain ⟨n, hn, hreduced', -, hlangn⟩ := hb.wellFormed.exists_minimize hflagb
  have hmb : m.SameLanguage fb := fun w => (hlangm w).trans (hlang w)
  have hmn : m.SameLanguage n := fun w => (hmb w).trans (hlangn w).symm
  refine ⟨m, n, hm, hn, fun s => ⟨?_, ?_⟩, hreduced.exists_isomorphism hreduced' hmn, ?_⟩
  · exact fun hs => hreduced.alphabet_subset hreduced' hmn hs
  · exact fun hs => hreduced'.alphabet_subset hreduced hmn.symm hs
  · exact hreduced.length_states_le hb.wellFormed (hb.wellFormed.deterministic hflagb) hmb

/-- The automata of `a*` and `a*|a*` accept the same words. -/
theorem exists_minimize_canonical_star :
    (∀ w, (Regex.PositionTable.ofExpr (.star (.letter 'a'))).automaton.accepts w =
        (Regex.PositionTable.ofExpr
          (.alternation (.star (.letter 'a')) (.star (.letter 'a')))).automaton.accepts w) ∧
      ∃ m n, (Regex.PositionTable.ofExpr (.star (.letter 'a'))).automaton.minimize = .ok m ∧
        (Regex.PositionTable.ofExpr
          (.alternation (.star (.letter 'a')) (.star (.letter 'a')))).automaton.minimize = .ok n ∧
        (∀ s, s ∈ m.alphabet ↔ s ∈ n.alphabet) ∧ (∃ f, m.Isomorphism n f) ∧
        m.states.length ≤ (Regex.PositionTable.ofExpr
          (.alternation (.star (.letter 'a')) (.star (.letter 'a')))).automaton.states.length := by
  have hleft : Regex.parse ['a', '*'] = .ok (.star (.letter 'a')) := rfl
  have hright : Regex.parse ['a', '*', '|', 'a', '*'] =
      .ok (.alternation (.star (.letter 'a')) (.star (.letter 'a'))) := rfl
  have hlang : ∀ w, (Regex.PositionTable.ofExpr (.star (.letter 'a'))).automaton.accepts w =
      (Regex.PositionTable.ofExpr
        (.alternation (.star (.letter 'a')) (.star (.letter 'a')))).automaton.accepts w := by
    intro w
    rw [Bool.eq_iff_iff, Regex.PositionTable.accepts_automaton (Regex.overTerminals_parse hleft),
      Regex.PositionTable.accepts_automaton (Regex.overTerminals_parse hright)]
    constructor
    · exact .left
    · intro h
      cases h with
      | left h => exact h
      | right h => exact h
  exact ⟨hlang, (obtainable_automaton hleft).exists_minimize_canonical
    (obtainable_automaton hright) rfl rfl hlang⟩

/-! ### Union and intersection -/

/-- **The union succeeds and accepts the words of either operand**, whatever labels the
operands share. -/
theorem Obtainable.exists_union_language (ha : fa.Obtainable) (hb : fb.Obtainable)
    (hflaga : fa.determinized = true) (hflagb : fb.determinized = true) :
    ∃ u, fa.union fb = .ok u ∧
      ∀ w, u.accepts w = true ↔ fa.accepts w = true ∨ fb.accepts w = true := by
  have hboth : bothDeterminized fa fb = true := by
    rw [bothDeterminized, hflaga, hflagb, Bool.and_self]
  exact ha.wellFormed.exists_union_accepts hb.wellFormed hboth

/-- The automaton of `a*`, which has a column for the marker now, is united with
itself. -/
theorem exists_union_language_self :
    ((Regex.PositionTable.ofExpr (.star (.letter 'a'))).automaton.apply
        (.addSymbol '&')).automaton.determinized = true ∧
      ∃ u, ((Regex.PositionTable.ofExpr (.star (.letter 'a'))).automaton.apply
          (.addSymbol '&')).automaton.union
          ((Regex.PositionTable.ofExpr (.star (.letter 'a'))).automaton.apply
            (.addSymbol '&')).automaton = .ok u ∧
        ∀ w, u.accepts w = true ↔
          ((Regex.PositionTable.ofExpr (.star (.letter 'a'))).automaton.apply
              (.addSymbol '&')).automaton.accepts w = true ∨
            ((Regex.PositionTable.ofExpr (.star (.letter 'a'))).automaton.apply
              (.addSymbol '&')).automaton.accepts w = true := by
  have hparse : Regex.parse ['a', '*'] = .ok (.star (.letter 'a')) := rfl
  have h := (obtainable_automaton hparse).apply (.addSymbol '&') (by simp [Command.operand?])
  have hflag : ((Regex.PositionTable.ofExpr (.star (.letter 'a'))).automaton.apply
      (.addSymbol '&')).automaton.determinized = true :=
    determinized_insertSymbol _ '&'
  exact ⟨hflag, h.exists_union_language h hflag hflag⟩

/-- **The intersection succeeds, is deterministic and accepts the words of both
operands.**  Its states stand for the pairs of states that the operands reach together
on the symbols that they share; there is none when an initial state is missing. -/
theorem Obtainable.exists_intersection_pairs (ha : fa.Obtainable) (hb : fb.Obtainable)
    (hflaga : fa.determinized = true) (hflagb : fb.determinized = true) :
    ∃ c, fa.intersection fb = .ok c ∧ c.isDeterministic = true ∧
      (∀ w, c.accepts w = true ↔ fa.accepts w = true ∧ fb.accepts w = true) ∧
      (∃ f, SideBySide fa fb c f) ∧
      (fa.initial = none ∨ fb.initial = none → c.states = []) := by
  obtain ⟨c, hc, hdet, hlang, f, hpairs⟩ :=
    ha.wellFormed.exists_intersection_sideBySide hb.wellFormed hflaga hflagb
  exact ⟨c, hc, hdet, hlang, ⟨f, hpairs⟩, hpairs.states_eq_nil⟩

/-- The automata of `a*b` and `a|b` share both symbols. -/
theorem exists_intersection_pairs_shared :
    (Regex.PositionTable.ofExpr
        (.concatenation (.star (.letter 'a')) (.letter 'b'))).automaton.determinized = true ∧
      (Regex.PositionTable.ofExpr
        (.alternation (.letter 'a') (.letter 'b'))).automaton.determinized = true ∧
      ∃ c, (Regex.PositionTable.ofExpr
          (.concatenation (.star (.letter 'a')) (.letter 'b'))).automaton.intersection
          (Regex.PositionTable.ofExpr (.alternation (.letter 'a') (.letter 'b'))).automaton =
            .ok c ∧ c.isDeterministic = true ∧
        (∀ w, c.accepts w = true ↔
          (Regex.PositionTable.ofExpr
            (.concatenation (.star (.letter 'a')) (.letter 'b'))).automaton.accepts w = true ∧
          (Regex.PositionTable.ofExpr
            (.alternation (.letter 'a') (.letter 'b'))).automaton.accepts w = true) ∧
        (∃ f, SideBySide
          (Regex.PositionTable.ofExpr
            (.concatenation (.star (.letter 'a')) (.letter 'b'))).automaton
          (Regex.PositionTable.ofExpr (.alternation (.letter 'a') (.letter 'b'))).automaton c f) ∧
        ((Regex.PositionTable.ofExpr
            (.concatenation (.star (.letter 'a')) (.letter 'b'))).automaton.initial = none ∨
          (Regex.PositionTable.ofExpr
            (.alternation (.letter 'a') (.letter 'b'))).automaton.initial = none →
          c.states = []) := by
  have hleft : Regex.parse ['a', '*', 'b'] =
      .ok (.concatenation (.star (.letter 'a')) (.letter 'b')) := rfl
  have hright : Regex.parse ['a', '|', 'b'] =
      .ok (.alternation (.letter 'a') (.letter 'b')) := rfl
  exact ⟨rfl, rfl, (obtainable_automaton hleft).exists_intersection_pairs
    (obtainable_automaton hright) rfl rfl⟩

end FiniteState.Automaton
