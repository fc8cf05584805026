import FiniteState.Regex.Compile
import FiniteState.Proofs.Automaton.Machine
import FiniteState.Proofs.Automaton.Renaming
import FiniteState.Proofs.Regex.Numbering
import FiniteState.Proofs.Regex.Parser
import FiniteState.Proofs.Regex.Walk

/-!
# The automaton of a regular expression accepts its words

The machine of a position table holds the positions that the next symbol can be
read at.  A word leads it to the end marker exactly when some positions carry the
symbols of the word and make, with the end marker after them, a walk in the
expression over positions.  Walks are words over positions, and these are mapped
to the words of the expression.

## Main definitions

* `Regex.PositionTable.next` — the positions to read next.
* `Regex.PositionTable.WalksToEnd` — a walk to the end marker reads the word.

## Main results

* `Regex.PositionTable.runFrom_machine` — a run of the machine to the end marker is a
  walk to it.
* `Regex.PositionTable.accepts_machine` — **the machine accepts the words of the
  expression**.
* `Regex.PositionTable.lawful_machine` — the machine is lawful.
* `Regex.exists_compile_language` — **a text that is an expression is compiled to a
  deterministic automaton for its words**.
-/

namespace FiniteState

namespace NatSet

theorem exists_mem_of_ne_empty {S : NatSet} (h : S ≠ ∅) : ∃ i, i ∈ S := by
  by_contra! hnone
  exact h (NatSet.ext fun i => iff_of_false (hnone i) (notMem_empty i))

/-- The sets of numbers below a bound: there are two to the bound. -/
def subsets (n : ℕ) : List NatSet := (List.range (1 <<< n)).map NatSet.mk

theorem length_subsets (n : ℕ) : (subsets n).length = 1 <<< n := by
  rw [subsets, List.length_map, List.length_range]

theorem mem_subsets {S : NatSet} {n : ℕ} (h : ∀ i ∈ S, i < n) : S ∈ subsets n := by
  refine List.mem_map.2 ⟨S.bits, List.mem_range.2 ?_, rfl⟩
  rw [Nat.one_shiftLeft]
  refine Nat.lt_pow_two_of_testBit _ fun i hi => ?_
  by_contra hbit
  exact absurd (h i (by simpa [mem_def] using hbit)) (Nat.not_lt.2 hi)

theorem mem_foldl_union {F : ℕ → NatSet} {l : List ℕ} {S : NatSet} {i : ℕ} :
    i ∈ l.foldl (fun acc p => acc.union (F p)) S ↔ i ∈ S ∨ ∃ p ∈ l, i ∈ F p := by
  induction l generalizing S with
  | nil => simp
  | cons p l ih =>
    rw [List.foldl_cons, ih, mem_union, or_assoc]
    simp only [List.mem_cons, exists_eq_or_imp]

end NatSet

namespace Regex

variable {e : Expr Symbol} {S T : NatSet} {s : Symbol} {p q : ℕ} {w : List Symbol}

/-! ### The table -/

theorem mem_followOf {links : List (NatSet × NatSet)} :
    q ∈ followOf links p ↔ ∃ l ∈ links, p ∈ l.1 ∧ q ∈ l.2 := by
  have key : ∀ acc : NatSet,
      q ∈ links.foldl (fun acc (l : NatSet × NatSet) =>
        if l.1.contains p then acc.union l.2 else acc) acc ↔
      q ∈ acc ∨ ∃ l ∈ links, p ∈ l.1 ∧ q ∈ l.2 := by
    induction links with
    | nil => simp
    | cons l links ih =>
      intro acc
      simp only [List.foldl_cons, ih, List.mem_cons, exists_eq_or_imp]
      rw [← or_assoc]
      refine or_congr_left ?_
      by_cases hl : l.1.contains p = true
      · rw [if_pos hl, NatSet.mem_union]
        exact or_congr_right (and_iff_right hl).symm
      · rw [if_neg hl]
        exact (or_iff_left fun h => hl h.1).symm
  rw [followOf, key]
  exact or_iff_right (NatSet.notMem_empty q)

namespace PositionTable

theorem letters_root (e : Expr Symbol) : (ofExpr e).root.letters = List.range (e.size + 1) := by
  rw [List.range_succ, ← Expr.letters_number]
  rfl

theorem nodup_letters_root (e : Expr Symbol) : (ofExpr e).root.letters.Nodup := by
  rw [letters_root]
  exact List.nodup_range

theorem size_ofExpr (e : Expr Symbol) : (ofExpr e).size = e.size + 1 := by
  rw [size, ofExpr, List.size_toArray, Expr.length_letters]

theorem endMarker_ofExpr (e : Expr Symbol) : (ofExpr e).endMarker = e.size := by
  rw [endMarker, ofExpr, List.size_toArray, Expr.length_letters]

theorem symbol?_ofExpr (e : Expr Symbol) (p : ℕ) : (ofExpr e).symbol? p = e.letters[p]? := by
  rw [symbol?, ofExpr, List.getElem?_toArray]

theorem mem_alphabet : s ∈ (ofExpr e).alphabet ↔ s ∈ e.letters := by
  simp [alphabet, ofExpr, List.mem_eraseDups]

/-- The table lists the positions that follow in the expression. -/
theorem mem_follow? :
    q ∈ ((ofExpr e).follow? p).getD ∅ ↔ (ofExpr e).root.Follows p q := by
  rw [follow?, ofExpr, List.getElem?_toArray, List.getElem?_map]
  by_cases hp : p < e.size + 1
  · rw [List.getElem?_range hp, Option.map_some, Option.getD_some, mem_followOf]
    rfl
  · -- nothing follows a number that is no position
    rw [List.getElem?_eq_none (by simpa using hp)]
    refine iff_of_false (NatSet.notMem_empty q) fun h => hp ?_
    have hmem := (Expr.mem_letters_of_follows (e := (ofExpr e).root) h).1
    rwa [letters_root, List.mem_range] at hmem

/-- The positions to read next after a symbol is read at a set of positions. -/
def next (t : PositionTable) (current : NatSet) (s : Symbol) : NatSet :=
  (current.toList.filter fun p => t.symbol? p == some s).foldl
    (fun acc p => acc.union ((t.follow? p).getD ∅)) ∅

theorem mem_next : q ∈ (ofExpr e).next S s ↔
    ∃ p ∈ S, (ofExpr e).symbol? p = some s ∧ (ofExpr e).root.Follows p q := by
  rw [next, NatSet.mem_foldl_union]
  simp only [List.mem_filter, NatSet.mem_toList, beq_iff_eq, mem_follow?, NatSet.notMem_empty,
    false_or, and_assoc]

theorem step_eq_some {t : PositionTable} : t.step S s = some T ↔ t.next S s = T ∧ T ≠ ∅ := by
  have hkept : t.step S s = some T ↔ t.next S s = T ∧ ¬ T.isEmpty = true :=
    some_unless_eq_some (P := fun S : NatSet => S.isEmpty = true)
  exact hkept.trans (and_congr_right' (not_congr NatSet.isEmpty_iff))

/-! ### The machine -/

/-- The walks that read a word at positions of a set and end at the end marker. -/
def WalksToEnd (e : Expr Symbol) (S : NatSet) (w : List Symbol) : Prop :=
  ∃ ps p rest, ps.map (ofExpr e).symbol? = w.map some ∧ ps ++ [e.size] = p :: rest ∧ p ∈ S ∧
    Walk (ofExpr e).root.Follows (.singleton e.size) (p :: rest)

theorem walksToEnd_nil : WalksToEnd e S [] ↔ e.size ∈ S := by
  constructor
  · intro hwalks
    obtain ⟨ps, p, rest, hps, hsplit, hp, -⟩ := hwalks
    obtain rfl := List.map_eq_nil_iff.1 hps
    obtain ⟨rfl, -⟩ := List.cons.inj hsplit
    exact hp
  · intro h
    exact ⟨[], e.size, [], rfl, rfl, h, .last (NatSet.mem_singleton.2 rfl)⟩

/-- A walk reads the first symbol at a position of the set and goes on from there. -/
theorem walksToEnd_cons : WalksToEnd e S (s :: w) ↔ WalksToEnd e ((ofExpr e).next S s) w := by
  constructor
  · intro hwalks
    obtain ⟨ps, p, rest, hps, hsplit, hp, hwalk⟩ := hwalks
    cases ps with
    | nil => cases hps
    | cons p' ps =>
      obtain ⟨rfl, rfl⟩ := List.cons.inj hsplit
      obtain ⟨hsymbol, hps⟩ := List.cons.inj hps
      -- the end marker comes after the positions, so the walk takes a step
      obtain ⟨q, qs, hq⟩ := List.exists_cons_of_ne_nil
        (List.append_ne_nil_of_right_ne_nil ps (List.cons_ne_nil e.size []))
      change Walk _ _ (p' :: (ps ++ [e.size])) at hwalk
      rw [hq] at hwalk
      cases hwalk with
      | step hpq htail => exact ⟨ps, q, qs, hps, hq, mem_next.2 ⟨p', hp, hsymbol, hpq⟩, htail⟩
  · intro hwalks
    obtain ⟨ps, q, rest, hps, hsplit, hq, hwalk⟩ := hwalks
    obtain ⟨p, hp, hsymbol, hpq⟩ := mem_next.1 hq
    refine ⟨p :: ps, p, q :: rest, ?_, by rw [List.cons_append, hsplit], hp, .step hpq hwalk⟩
    rw [List.map_cons, List.map_cons, hsymbol, hps]

/-- **A run of the machine to the end marker is a walk to it.** -/
theorem runFrom_machine :
    (∃ T, (ofExpr e).machine.runFrom S w = some T ∧ e.size ∈ T) ↔ WalksToEnd e S w := by
  induction w generalizing S with
  | nil =>
    rw [walksToEnd_nil]
    simp
  | cons s w ih =>
    rw [walksToEnd_cons, ← ih]
    constructor
    · rintro ⟨T, hT, hend⟩
      obtain ⟨-, S', hS', hT⟩ := Machine.runFrom_cons_eq_some.1 hT
      obtain ⟨rfl, -⟩ := step_eq_some.1 hS'
      exact ⟨T, hT, hend⟩
    · rintro ⟨T, hT, hend⟩
      -- the walk reads the symbol at some position, so the symbol is in the alphabet
      obtain ⟨ps, q, rest, -, -, hq, -⟩ := ih.1 ⟨T, hT, hend⟩
      obtain ⟨p, -, hsymbol, -⟩ := mem_next.1 hq
      rw [symbol?_ofExpr] at hsymbol
      refine ⟨T, Machine.runFrom_cons_eq_some.2
        ⟨mem_alphabet.2 (List.mem_of_getElem? hsymbol), _, step_eq_some.2 ⟨rfl, ?_⟩, hT⟩, hend⟩
      intro hempty
      rw [hempty] at hq
      exact NatSet.notMem_empty q hq

/-- The end marker comes after the words of the expression over positions. -/
theorem matches_root {ps : List ℕ} :
    (ofExpr e).root.Matches (ps ++ [e.size]) ↔ e.number.Matches ps := by
  constructor
  · intro h
    generalize hw : ps ++ [e.size] = w at h
    cases h with
    | append hu hv =>
      cases hv with
      | letter =>
        obtain ⟨rfl, -⟩ := List.append_inj' hw rfl
        exact hu
  · exact fun h => .append h (.letter e.size)

theorem reads_root {ps : List ℕ} :
    (ofExpr e).root.Reads (ps ++ [e.size]) ↔ e.number.Matches ps := by
  rw [← matches_root, Expr.matches_iff (nodup_letters_root e)]
  exact (or_iff_right fun h => by simpa using h.1).symm

/-- **The machine accepts the words of the expression.** -/
theorem accepts_machine (e : Expr Symbol) (w : List Symbol) :
    (ofExpr e).machine.accepts w = true ↔ e.Matches w := by
  have hrun : (ofExpr e).machine.accepts w = true ↔
      WalksToEnd e (ofExpr e).root.facts.first w := by
    rw [← runFrom_machine, Machine.accepts_iff, ← endMarker_ofExpr]
    constructor
    · rintro ⟨i, T, hi, hT, hend⟩
      cases hi
      exact ⟨T, hT, hend⟩
    · rintro ⟨T, hT, hend⟩
      exact ⟨_, T, rfl, hT, hend⟩
  have hwords : WalksToEnd e (ofExpr e).root.facts.first w ↔
      ∃ ps, e.number.Matches ps ∧ ps.map (ofExpr e).symbol? = w.map some := by
    constructor
    · intro hwalks
      obtain ⟨ps, p, rest, hps, hsplit, hp, hwalk⟩ := hwalks
      exact ⟨ps, reads_root.1 ⟨p, rest, hsplit, hp, hsplit ▸ hwalk⟩, hps⟩
    · rintro ⟨ps, hmatch, hps⟩
      obtain ⟨p, rest, hsplit, hp, hwalk⟩ := reads_root.2 hmatch
      exact ⟨ps, p, rest, hps, hsplit, hp, hsplit ▸ hwalk⟩
  have hsymbol : (ofExpr e).symbol? = fun i => e.letters[i]? := funext (symbol?_ofExpr e)
  rw [hrun, hwords, ← Expr.matches_map, hsymbol, Expr.map_number, Expr.matches_map]
  -- what is left is that the symbols are looked up, and found
  constructor
  · rintro ⟨v, hv, heq⟩
    rwa [← List.map_injective_iff.2 (Option.some_injective _) heq]
  · exact fun h => ⟨w, h, rfl⟩

theorem lt_size_of_mem_letters (h : p ∈ (ofExpr e).root.letters) : p < (ofExpr e).size := by
  rwa [letters_root, List.mem_range, ← size_ofExpr] at h

theorem initial_machine_mem (hS : (ofExpr e).machine.initial = some S) :
    S ∈ NatSet.subsets (ofExpr e).size := by
  obtain rfl := Option.some.inj hS
  exact NatSet.mem_subsets fun p hp => lt_size_of_mem_letters (Expr.mem_letters_of_mem_first hp)

theorem step_machine_mem (hT : (ofExpr e).machine.step S s = some T) :
    T ∈ NatSet.subsets (ofExpr e).size := by
  obtain ⟨rfl, -⟩ := step_eq_some.1 hT
  refine NatSet.mem_subsets fun q hq => ?_
  obtain ⟨p, -, -, hpq⟩ := mem_next.1 hq
  exact lt_size_of_mem_letters (Expr.mem_letters_of_follows hpq).2

/-- **The machine is lawful**: its bound is the number of sets of positions. -/
theorem lawful_machine (h : e.OverTerminals) : (ofExpr e).machine.Lawful := by
  refine Machine.lawful_discovered (U := NatSet.subsets (ofExpr e).size) ?_ ?_ ?_ ?_ ?_
  · exact List.nodup_eraseDups _
  · intro S hs
    have := h _ (mem_alphabet.1 hs)
    rw [Symbol.isTerminal_epsilon] at this
    cases this
  · exact fun S hS => initial_machine_mem hS
  · exact fun S _ s _ T hT => step_machine_mem hT
  · exact Nat.le_of_eq (NatSet.length_subsets _)

/-! ### The automaton -/

theorem wellFormed_automaton (h : e.OverTerminals) : (ofExpr e).automaton.WellFormed :=
  ((lawful_machine h).wellFormed describe).rename

theorem determinized_automaton (e : Expr Symbol) : (ofExpr e).automaton.determinized = true := rfl

theorem accepts_automaton (h : e.OverTerminals) (w : List Symbol) :
    (ofExpr e).automaton.accepts w = true ↔ e.Matches w := by
  rw [automaton, ((lawful_machine h).wellFormed describe).accepts_rename,
    (lawful_machine h).accepts_toAutomaton, accepts_machine]

end PositionTable

/-- What is compiled is the automaton of what is parsed. -/
theorem compile_eq_ok {text : List Char} {fa : Automaton} :
    compile text = .ok fa ↔ ∃ e, parse text = .ok e ∧ (PositionTable.ofExpr e).automaton = fa := by
  unfold compile
  cases hparse : parse text with
  | error cause => exact iff_of_false (fun h => by cases h) fun ⟨_, h, _⟩ => by cases h
  | ok e =>
    constructor
    · intro h
      cases h
      exact ⟨e, rfl, rfl⟩
    · rintro ⟨e', he, rfl⟩
      cases he
      rfl

/-- **A text that is an expression is compiled to a deterministic automaton for its
words.** -/
theorem exists_compile_language {text : List Char} (h : parse text = .ok e) :
    ∃ fa, compile text = .ok fa ∧ (∀ w, fa.accepts w = true ↔ e.Matches w) ∧
      fa.determinized = true ∧ fa.isDeterministic = true := by
  have hterminals := overTerminals_parse h
  have hwf := PositionTable.wellFormed_automaton hterminals
  have hflag := PositionTable.determinized_automaton e
  refine ⟨(PositionTable.ofExpr e).automaton, compile_eq_ok.2 ⟨e, h, rfl⟩,
    PositionTable.accepts_automaton hterminals, hflag, ?_⟩
  exact hwf.isDeterministic_iff.2 (hwf.deterministic hflag)

/-- The text `(a|b)*a` is such a text. -/
theorem exists_compile_language_star :
    parse ['(', 'a', '|', 'b', ')', '*', 'a'] =
        .ok (.concatenation (.star (.alternation (.letter 'a') (.letter 'b'))) (.letter 'a')) ∧
      ∃ fa, compile ['(', 'a', '|', 'b', ')', '*', 'a'] = .ok fa ∧
        (∀ w, fa.accepts w = true ↔
          (Expr.concatenation (.star (.alternation (.letter 'a') (.letter 'b')))
            (.letter 'a')).Matches w) ∧
        fa.determinized = true ∧ fa.isDeterministic = true :=
  ⟨rfl, exists_compile_language rfl⟩

end Regex

end FiniteState
