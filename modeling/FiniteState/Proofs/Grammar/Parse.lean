import Mathlib.Data.List.Forall2
import FiniteState.Proofs.Grammar.Lines
import FiniteState.Proofs.Grammar.Syntax

/-!
# Which texts are grammars

A text is a grammar if it has at least one production, every production of it is a
rule, and the rules about the empty word hold: no nonterminal but the start symbol,
which is that of the first rule, has the empty word as an alternative, and if the
start symbol has, no alternative leads to it.  The alternatives of a nonterminal are
those of all its rules, in order of appearance and each once.

If some production is no rule, there is one error for each of these, and it is
reported on the line where the production begins.

## Main definitions

* `Grammar.Says` — the productions of a text are the rules.
* `Grammar.EpsilonRules` — the rules about the empty word hold.
* `Grammar.gather` — the alternatives of each nonterminal.

## Main results

* `Grammar.map_parseRule_eq_iff` — the rules of a text are read if it says them.
* `Grammar.ofRules_eq_ok_iff` — **rules make up a grammar if the rules about the empty
  word hold**.
* `Grammar.parse_eq_ok_iff` — **a text is a grammar if it says such rules**.
* `Grammar.map_location_failures` — **the errors of malformed lines**.
* `Grammar.parse_exact` — all of this together.
-/

namespace FiniteState.Grammar

variable {g : Grammar} {text : String} {start head : Symbol} {rules : List Rule} {p : Production}

/-! ### Results -/

section Results

variable {ε α : Type}

theorem failures_map_ok (values : List α) : failures (values.map (Except.ok (ε := ε))) = [] := by
  simp [failures]

theorem successes_map_ok (values : List α) :
    successes (values.map (Except.ok (ε := ε))) = values := by
  simp [successes, List.filterMap_map]

/-- Results without failures are those of the successes. -/
theorem eq_map_ok_of_failures {results : List (Except ε α)} (h : failures results = []) :
    results = (successes results).map .ok := by
  induction results with
  | nil => rfl
  | cons result results ih =>
    cases result with
    | error e => cases h
    | ok a =>
      have := ih h
      rw [show successes (.ok a :: results) = a :: successes results from rfl, List.map_cons,
        ← this]

end Results

/-! ### The rules of a text -/

/-- **The productions of the text are the rules**, one after the other, each on the line
where it begins. -/
def Says (text : String) (rules : List Rule) : Prop :=
  List.Forall₂ (fun line rule => rule.StatedOn line) (logicalLines text.toList) rules

/-- **The rules of a text are read if it says them.** -/
theorem map_parseRule_eq_iff :
    (logicalLines text.toList).map parseRule = rules.map .ok ↔ Says text rules := by
  rw [← List.forall₂_eq_eq_eq, List.forall₂_map_left_iff, List.forall₂_map_right_iff, Says]
  simp only [parseRule_eq_ok_iff]

/-! ### Rules of the same nonterminal -/

/-- The alternatives of each nonterminal that has a rule: those of all its rules, in order
of appearance and each once. -/
def gather (rules : List Rule) : List (Symbol × List Production) :=
  (rules.map Rule.head).eraseDups.map fun head =>
    (head, ((rules.filter fun rule => rule.head == head).flatMap Rule.alternatives).eraseDups)

theorem map_entries (rules : List Rule) :
    (entries rules).map (fun e => (e.head, e.alternatives)) = gather rules := by
  rw [entries, List.map_map]
  rfl

theorem mem_alternatives_entryOf :
    p ∈ (entryOf rules head).alternatives ↔
      ∃ rule ∈ rules, rule.head = head ∧ p ∈ rule.alternatives := by
  simp [entryOf, List.mem_eraseDups, and_assoc]

/-- Which heads have an alternative is the same for the entries and for the rules. -/
theorem forall_mem_entries {P : Symbol → Prop} :
    (∀ e ∈ entries rules, p ∈ e.alternatives → P e.head) ↔
      ∀ rule ∈ rules, p ∈ rule.alternatives → P rule.head := by
  constructor
  · intro h rule hrule hp
    have hhead : rule.head ∈ (rules.map Rule.head).eraseDups :=
      List.mem_eraseDups.2 (List.mem_map.2 ⟨rule, hrule, rfl⟩)
    have hentry : entryOf rules rule.head ∈ entries rules := List.mem_map.2 ⟨_, hhead, rfl⟩
    exact h _ hentry (mem_alternatives_entryOf.2 ⟨rule, hrule, rfl, hp⟩)
  · intro h e he hp
    obtain ⟨head, -, rfl⟩ := List.mem_map.1 he
    obtain ⟨rule, hrule, rfl, hp'⟩ := mem_alternatives_entryOf.1 hp
    exact h rule hrule hp'

/-! ### The rules about the empty word -/

/-- **The rules about the empty word.** -/
structure EpsilonRules (start : Symbol) (rules : List Rule) : Prop where
  /-- Only the start symbol derives the empty word. -/
  only_start : ∀ rule ∈ rules, .empty ∈ rule.alternatives → rule.head = start
  /-- If it does, no alternative leads to it. -/
  not_reentered : (∃ rule ∈ rules, rule.head = start ∧ .empty ∈ rule.alternatives) →
    ∀ rule ∈ rules, ∀ t, .step t start ∉ rule.alternatives

theorem misplacedEpsilons_eq_nil_iff : misplacedEpsilons start (entries rules) = [] ↔
    ∀ rule ∈ rules, .empty ∈ rule.alternatives → rule.head = start := by
  rw [← forall_mem_entries (P := fun head => head = start)]
  simp [misplacedEpsilons, not_imp_not]

theorem startIsNullable_iff : startIsNullable start (entries rules) = true ↔
    ∃ rule ∈ rules, rule.head = start ∧ .empty ∈ rule.alternatives := by
  have hnone : startIsNullable start (entries rules) = false ↔
      ∀ e ∈ entries rules, .empty ∈ e.alternatives → e.head ≠ start := by
    simp [startIsNullable, imp_not_comm]
  rw [← Bool.not_eq_false, hnone, forall_mem_entries (P := fun head => head ≠ start)]
  simp [and_comm]

theorem startReentries_eq_nil_iff : startReentries start (entries rules) = [] ↔
    ((∃ rule ∈ rules, rule.head = start ∧ .empty ∈ rule.alternatives) →
      ∀ rule ∈ rules, ∀ t, .step t start ∉ rule.alternatives) := by
  have hsteps : (∀ e ∈ entries rules, ∀ t, .step t start ∉ e.alternatives) ↔
      ∀ rule ∈ rules, ∀ t, .step t start ∉ rule.alternatives := by
    constructor
    · intro h rule hrule t
      exact (forall_mem_entries (P := fun _ => False)).1 (fun e he => h e he t) rule hrule
    · intro h e he t
      exact (forall_mem_entries (P := fun _ => False)).2 (fun r hr => h r hr t) e he
  rw [← startIsNullable_iff, ← hsteps, startReentries]
  split
  · rename_i hnullable
    simp [hnullable, Production.nonterminal?_eq_some_iff]
  · rename_i hnullable
    simp [hnullable]

/-- **Rules make up a grammar if the rules about the empty word hold.** -/
theorem ofRules_eq_ok_iff : ofRules text start rules = .ok g ↔
    EpsilonRules start rules ∧ g = ⟨text, start, gather rules⟩ := by
  constructor
  · intro h
    obtain ⟨hmisplaced, hreentries, rfl⟩ := ofRules_eq_ok h
    refine ⟨⟨misplacedEpsilons_eq_nil_iff.1 hmisplaced,
      startReentries_eq_nil_iff.1 hreentries⟩, ?_⟩
    rw [map_entries]
  · intro h
    obtain ⟨hrules, rfl⟩ := h
    have hmisplaced := misplacedEpsilons_eq_nil_iff.2 hrules.only_start
    have hreentries := startReentries_eq_nil_iff.2 hrules.not_reentered
    simp only [ofRules, hmisplaced, hreentries, List.append_nil, map_entries]

/-! ### Texts -/

/-- Where every production is a rule, the rules about the empty word decide. -/
theorem parse_eq_ofRules {first : Rule} {rest : List Rule} (h : Says text (first :: rest)) :
    parse text = ofRules text first.head (first :: rest) := by
  unfold parse
  rw [map_parseRule_eq_iff.2 h]
  simp only [failures_map_ok, successes_map_ok]

/-- **A text is a grammar if it says rules**, at least one, that keep the rules about the
empty word. -/
theorem parse_eq_ok_iff : parse text = .ok g ↔
    ∃ first rest, Says text (first :: rest) ∧ EpsilonRules first.head (first :: rest) ∧
      g = ⟨text, first.head, gather (first :: rest)⟩ := by
  simp only [← ofRules_eq_ok_iff]
  constructor
  · intro h
    unfold parse at h
    dsimp only at h
    split at h
    · cases h
    · rename_i first rest hfailures hsuccesses
      refine ⟨first, rest, map_parseRule_eq_iff.1 ?_, h⟩
      rw [← hsuccesses]
      exact eq_map_ok_of_failures hfailures
    · cases h
  · intro h
    obtain ⟨first, rest, hsays, hg⟩ := h
    rw [parse_eq_ofRules hsays, hg]

/-- **There is one error for each malformed line**, and it is reported there. -/
theorem map_location_failures (lines : List (ℕ × List Char)) :
    (failures (lines.map parseRule)).map Located.location =
      (lines.filter fun line => !decide (IsRule line.2)).map fun line => .onLine line.1 := by
  induction lines with
  | nil => rfl
  | cons line lines ih =>
    by_cases hrule : IsRule line.2
    · obtain ⟨head, alternatives, hstates⟩ := hrule
      have hparse : parseRule line = .ok ⟨line.1, head, alternatives⟩ :=
        parseRule_eq_ok_iff.2 ⟨rfl, hstates⟩
      have hrule : IsRule line.2 := ⟨head, alternatives, hstates⟩
      rw [List.filter_cons_of_neg (by simpa using hrule), List.map_cons, hparse]
      exact ih
    · obtain ⟨cause, hparse⟩ := exists_parseRule_eq_error hrule
      rw [List.filter_cons_of_pos (by simpa using hrule), List.map_cons, hparse, List.map_cons,
        ← ih]
      rfl

/-- A text with malformed lines has the errors of these lines. -/
theorem parse_eq_error_of_not_isRule {line : ℕ × List Char}
    (hline : line ∈ logicalLines text.toList) (hrule : ¬ IsRule line.2) :
    parse text = .error (failures ((logicalLines text.toList).map parseRule)) := by
  have hne : failures ((logicalLines text.toList).map parseRule) ≠ [] := by
    intro heq
    have hlocations := map_location_failures (logicalLines text.toList)
    rw [heq] at hlocations
    have hmem : line ∈ (logicalLines text.toList).filter fun line => !decide (IsRule line.2) := by
      simp [hline, hrule]
    rw [List.map_eq_nil_iff.1 hlocations.symm] at hmem
    exact absurd hmem List.not_mem_nil
  unfold parse
  cases hfailures : failures ((logicalLines text.toList).map parseRule) with
  | nil => exact absurd hfailures hne
  | cons e errors => simp only [hfailures]

/-- **Which texts are grammars, which grammars these are, and what is reported of texts
with malformed lines.**  The productions of a text are its runs of lines. -/
theorem parse_exact (text : String) :
    logicalLines text.toList = (runs text.toList).map joined ∧
    (∀ g, parse text = .ok g ↔
      ∃ first rest, Says text (first :: rest) ∧ EpsilonRules first.head (first :: rest) ∧
        g = ⟨text, first.head, gather (first :: rest)⟩) ∧
    (logicalLines text.toList = [] → parse text = .error [.wholeInput .emptyGrammar]) ∧
    ((∃ line ∈ logicalLines text.toList, ¬ IsRule line.2) →
      ∃ errors, parse text = .error errors ∧
        errors.map Located.location =
          ((logicalLines text.toList).filter fun line => !decide (IsRule line.2)).map
            fun line => .onLine line.1) := by
  refine ⟨logicalLines_eq _, fun g => parse_eq_ok_iff, fun hnil => ?_, fun hmalformed => ?_⟩
  · unfold parse
    rw [hnil]
    rfl
  · obtain ⟨line, hline, hrule⟩ := hmalformed
    exact ⟨_, parse_eq_error_of_not_isRule hline hrule, map_location_failures _⟩

/-- The first production of this text goes on over a line, and is reported on its first
line, as is the last one. -/
theorem parse_exact_joined :
    logicalLines "S -> aA |\n  bb\n\nA -> b\nB = c".toList =
        [(1, "S -> aA | bb".toList), (4, "A -> b".toList), (5, "B = c".toList)] ∧
      ∃ errors, parse "S -> aA |\n  bb\n\nA -> b\nB = c" = .error errors ∧
        errors.map Located.location = [.onLine 1, .onLine 5] := by
  have hlines : logicalLines "S -> aA |\n  bb\n\nA -> b\nB = c".toList =
      [(1, "S -> aA | bb".toList), (4, "A -> b".toList), (5, "B = c".toList)] := rfl
  obtain ⟨-, -, -, hmalformed⟩ := parse_exact "S -> aA |\n  bb\n\nA -> b\nB = c"
  have hrule : ¬ IsRule "B = c".toList := by decide
  have hlast : (5, "B = c".toList) ∈ logicalLines "S -> aA |\n  bb\n\nA -> b\nB = c".toList := by
    rw [hlines]
    simp
  obtain ⟨errors, hparse, hlocations⟩ := hmalformed ⟨_, hlast, hrule⟩
  have hfilter : (logicalLines "S -> aA |\n  bb\n\nA -> b\nB = c".toList).filter
      (fun line => !decide (IsRule line.2)) =
        [(1, "S -> aA | bb".toList), (5, "B = c".toList)] := by
    rw [hlines]
    decide
  rw [hfilter] at hlocations
  exact ⟨hlines, errors, hparse, hlocations⟩

end FiniteState.Grammar
