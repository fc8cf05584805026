import FiniteState.Proofs.Automaton.Constructed
import FiniteState.Proofs.Regex.Annotations
import FiniteState.Proofs.Regex.Syntax

/-!
# The automaton of a regular expression is trim

The machine of a position table becomes an automaton without being trimmed, and it need not
be.  No part of an expression stands for the empty language, so every position stands in some
word.  What comes after the position in that word is a walk to the end marker.  The machine
moves between sets that hold some position, so from each of its states a word leads on to
the end.  A letter of the expression stands in a word too, which the automaton reads.

## Main definitions

* `Regex.PositionTable.Occupied` — the sets of positions that the machine moves between.

## Main results

* `Regex.Expr.exists_matches_of_mem_letters` — every letter stands in some word.
* `Regex.PositionTable.exists_walksToEnd` — a walk leads from every position to the end.
* `Regex.PositionTable.occupied_step`, `Regex.PositionTable.occupied_runFrom` — the machine
  moves between occupied sets.
* `Regex.PositionTable.trimmed_automaton` — **nothing is superfluous in the automaton of an
  expression**.
* `Regex.compile_trim` — **what is compiled from a text is trim and reads the terminals of
  the text**.
-/

namespace FiniteState.Regex

/-- **Every letter of an expression stands in some word.** -/
theorem Expr.exists_matches_of_mem_letters {α : Type} {e : Expr α} {a : α} (h : a ∈ e.letters) :
    ∃ u v, e.Matches (u ++ a :: v) := by
  induction e with
  | empty => exact absurd h List.not_mem_nil
  | letter b =>
    obtain rfl := List.mem_singleton.1 h
    exact ⟨[], [], .letter a⟩
  | star e ih =>
    obtain ⟨u, v, hword⟩ := ih h
    exact ⟨u, v, matches_star_of_matches hword⟩
  | alternation e f ihe ihf =>
    rcases List.mem_append.1 h with h | h
    · obtain ⟨u, v, hword⟩ := ihe h
      exact ⟨u, v, .left hword⟩
    · obtain ⟨u, v, hword⟩ := ihf h
      exact ⟨u, v, .right hword⟩
  | concatenation e f ihe ihf =>
    -- the word of one side is completed by any word of the other
    rcases List.mem_append.1 h with h | h
    · obtain ⟨u, v, hword⟩ := ihe h
      obtain ⟨w, hw⟩ := exists_matches f
      refine ⟨u, v ++ w, ?_⟩
      rw [← List.cons_append, ← List.append_assoc]
      exact .append hword hw
    · obtain ⟨w, hw⟩ := exists_matches e
      obtain ⟨u, v, hword⟩ := ihf h
      refine ⟨w ++ u, v, ?_⟩
      rw [List.append_assoc]
      exact .append hw hword

namespace PositionTable

variable {e : Expr Symbol} {S T : NatSet} {s : Symbol} {p : ℕ} {ps : List ℕ} {w : List Symbol}

/-! ### Walks to the end -/

/-- The positions of a word carry symbols. -/
theorem exists_symbols (h : e.number.Matches ps) :
    ∃ w : List Symbol, ps.map (ofExpr e).symbol? = w.map some := by
  have hword : (e.map some).Matches (ps.map (ofExpr e).symbol?) := by
    rw [← Expr.map_number e, ← funext (symbol?_ofExpr e)]
    exact h.map
  obtain ⟨w, -, hw⟩ := Expr.matches_map.1 hword
  exact ⟨w, hw.symm⟩

/-- **A walk leads from every position to the end marker.** -/
theorem exists_walksToEnd (hp : p ∈ (ofExpr e).root.letters) (hS : p ∈ S) :
    ∃ w, WalksToEnd e S w := by
  rcases List.mem_append.1 hp with hp | hp
  · -- the rest of a word through the position, with the end marker after it
    obtain ⟨u, v, hword⟩ := Expr.exists_matches_of_mem_letters hp
    obtain ⟨w, hw⟩ := exists_symbols hword
    rw [List.map_append, eq_comm, List.map_eq_append_iff] at hw
    obtain ⟨-, w, -, -, hw⟩ := hw
    obtain ⟨q, qs, hsplit, -, hwalk⟩ := reads_root.2 hword
    rw [List.append_assoc] at hwalk
    exact ⟨w, p :: v, p, v ++ [e.size], hw.symm, rfl, hS, hwalk.of_append⟩
  · obtain rfl := List.mem_singleton.1 hp
    exact ⟨[], walksToEnd_nil.2 hS⟩

/-! ### The sets that the machine moves between -/

/-- The set holds positions of the expression, and at least one of them. -/
structure Occupied (e : Expr Symbol) (S : NatSet) : Prop where
  /-- It holds a position. -/
  nonempty : ∃ p, p ∈ S
  /-- It holds nothing else. -/
  positions : ∀ p ∈ S, p ∈ (ofExpr e).root.letters

/-- Some position begins a word. -/
theorem occupied_first (e : Expr Symbol) : Occupied e (ofExpr e).root.facts.first where
  nonempty := by
    obtain ⟨ps, hps⟩ := Expr.exists_matches e.number
    obtain ⟨p, -, -, hp, -⟩ := reads_root.2 hps
    exact ⟨p, hp⟩
  positions _ := Expr.mem_letters_of_mem_first

/-- **A step leads to an occupied set**, wherever it starts. -/
theorem occupied_step (h : (ofExpr e).step S s = some T) : Occupied e T := by
  obtain ⟨rfl, hne⟩ := step_eq_some.1 h
  refine ⟨NatSet.exists_mem_of_ne_empty hne, fun q hq => ?_⟩
  obtain ⟨p, -, -, hpq⟩ := mem_next.1 hq
  exact (Expr.mem_letters_of_follows hpq).2

/-- **A run leads from an occupied set to an occupied set.** -/
theorem occupied_runFrom (hS : Occupied e S) (h : (ofExpr e).machine.runFrom S w = some T) :
    Occupied e T := by
  induction w generalizing S with
  | nil => exact Option.some.inj h ▸ hS
  | cons s w ih =>
    obtain ⟨-, S', hS', h⟩ := Machine.runFrom_cons_eq_some.1 h
    exact ih (occupied_step hS') h

/-- Words lead to the states of the machine. -/
theorem exists_runFrom_of_mem_states (h : S ∈ (ofExpr e).machine.states) :
    ∃ w, (ofExpr e).machine.runFrom (ofExpr e).root.facts.first w = some S := by
  have hdiscovered : S ∈ ((ofExpr e).machine.discovered (1 <<< (ofExpr e).size)).states := h
  obtain ⟨i, w, hi, hrun⟩ := Machine.exists_runFrom_of_mem_discovered hdiscovered
  obtain rfl := Option.some.inj hi
  exact ⟨w, hrun⟩

theorem occupied_of_mem_states (h : S ∈ (ofExpr e).machine.states) : Occupied e S := by
  obtain ⟨w, hrun⟩ := exists_runFrom_of_mem_states h
  exact occupied_runFrom (occupied_first e) hrun

/-! ### The automaton -/

section Terminals

variable (h : e.OverTerminals)

include h

/-- From every state of the machine a word leads on to the end. -/
theorem useful_label (hS : S ∈ (ofExpr e).machine.states) :
    ((ofExpr e).machine.toAutomaton describe).Useful
      ((ofExpr e).machine.label describe S) := by
  have hoccupied := occupied_of_mem_states hS
  obtain ⟨p, hp⟩ := hoccupied.nonempty
  obtain ⟨w, hwalks⟩ := exists_walksToEnd (hoccupied.positions p hp) hp
  obtain ⟨T, hT, hend⟩ := runFrom_machine.2 hwalks
  rw [← endMarker_ofExpr] at hend
  exact ⟨w, ((lawful_machine h).acceptsFrom_toAutomaton hS).2 ⟨T, hT, hend⟩⟩

/-- Every symbol is read on the way to the end. -/
theorem exists_target_of_mem_letters (hs : s ∈ e.letters) :
    ∃ q r, r ∈ ((ofExpr e).machine.toAutomaton describe).targets q s := by
  have hlawful := lawful_machine h
  obtain ⟨u, v, hword⟩ := Expr.exists_matches_of_mem_letters hs
  have haccepts := (accepts_machine e _).2 hword
  rw [← hlawful.accepts_toAutomaton, (hlawful.wellFormed describe).accepts_iff] at haccepts
  obtain ⟨p, -, f, -, hpath⟩ := haccepts
  exact (hpath.exists_target_of_mem (List.mem_append_right u List.mem_cons_self)).2

theorem trimmed_toAutomaton : ((ofExpr e).machine.toAutomaton describe).Trimmed where
  wellFormed := (lawful_machine h).wellFormed describe
  deterministic := (lawful_machine h).deterministic_toAutomaton describe
  reached hq := by
    obtain ⟨S, hS, rfl⟩ := (lawful_machine h).mem_states_toAutomaton.1 hq
    obtain ⟨w, hrun⟩ := exists_runFrom_of_mem_states hS
    exact (lawful_machine h).reached_toAutomaton rfl hrun
  useful hq := by
    obtain ⟨S, hS, rfl⟩ := (lawful_machine h).mem_states_toAutomaton.1 hq
    exact useful_label h hS
  used hs := exists_target_of_mem_letters h (mem_alphabet.1 hs)

/-- **Nothing is superfluous in the automaton of an expression.** -/
theorem trimmed_automaton : (ofExpr e).automaton.Trimmed := (trimmed_toAutomaton h).rename

theorem constructed_automaton : (ofExpr e).automaton.Constructed :=
  ((lawful_machine h).constructed describe).rename

end Terminals

theorem mem_alphabet_automaton : s ∈ (ofExpr e).automaton.alphabet ↔ s ∈ e.letters := by
  rw [automaton, Automaton.rename_eq, Automaton.alphabet_relabel]
  exact mem_alphabet

end PositionTable

/-- **What is compiled from a text is trim.**  Every state is reached from the initial one and
reaches an accepting one; the symbols are the terminals of the text, and each of them leads
somewhere; so nothing is left to remove. -/
theorem compile_trim {text : List Char} {fa : Automaton} (h : compile text = .ok fa) :
    (∀ q ∈ fa.states, fa.Reached q ∧ fa.Useful q) ∧
      (∀ s, s ∈ fa.alphabet ↔ s ∈ text ∧ Symbol.isTerminal s = true) ∧
      (∀ s ∈ fa.alphabet, ∃ q r, r ∈ fa.targets q s) ∧
      fa.removeUseless = fa ∧ fa.removeUnreachable = fa ∧ fa.pruneUnusedSymbols = fa := by
  obtain ⟨e, he, rfl⟩ := compile_eq_ok.1 h
  have hterminals := overTerminals_parse he
  have htrimmed := PositionTable.trimmed_automaton hterminals
  have hconstructed := PositionTable.constructed_automaton hterminals
  refine ⟨fun q hq => ⟨htrimmed.reached hq, htrimmed.useful hq⟩, fun s => ?_,
    fun s => htrimmed.used, hconstructed.removeUseless_eq htrimmed,
    hconstructed.removeUnreachable_eq fun q => htrimmed.reached,
    hconstructed.pruneUnusedSymbols_eq fun s => htrimmed.used⟩
  rw [PositionTable.mem_alphabet_automaton, letters_parse he, List.mem_filter]

/-- The text `a*(b|)` is compiled to such an automaton, over its two letters. -/
theorem compile_trim_optional :
    ∃ fa, compile "a*(b|)".toList = .ok fa ∧ fa.removeUseless = fa ∧
      fa.removeUnreachable = fa ∧ fa.pruneUnusedSymbols = fa ∧
      ∀ s, s ∈ fa.alphabet ↔ s = 'a' ∨ s = 'b' := by
  have hparse : parse "a*(b|)".toList = .ok (.concatenation (.star (.letter 'a'))
    (.alternation (.letter 'b') .empty)) := rfl
  have hfa := compile_eq_ok.2 ⟨_, hparse, rfl⟩
  have hterminals : "a*(b|)".toList.filter Symbol.isTerminal = ['a', 'b'] := by decide
  obtain ⟨-, halphabet, -, huseless, hunreachable, hunused⟩ := compile_trim hfa
  refine ⟨_, hfa, huseless, hunreachable, hunused, fun s => (halphabet s).trans ?_⟩
  rw [← List.mem_filter, hterminals]
  simp

end FiniteState.Regex
