import FiniteState.Proofs.Automaton.Product

/-!
# The language of an intersection

Two deterministic automata side by side are in one pair of states after each word, as
long as both can read it.  So the machine of pairs accepts a word exactly when both
automata do.  Its states are the pairs that the two reach together on the symbols that
they share.  The automaton of the intersection has a state for each of them: labels of
pairs may be alike, but primes tell them apart, and the short names do so again.

## Main definitions

* `Machine.shortName` — the name of a state of a machine in its renamed automaton.
* `Automaton.ReachedTogether` — the pairs of states that two automata reach side by
  side.
* `Automaton.SideBySide` — the states of an automaton stand for these pairs.

## Main results

* `WellFormed.runFrom_allPairs_eq_some` — the machine of pairs runs both automata.
* `WellFormed.mem_states_pairs_iff` — its states are the pairs that are reached
  together.
* `WellFormed.accepts_pairs` — it accepts the words of both.
* `WellFormed.exists_intersection_sideBySide` — **the intersection accepts the words of
  both, and its states stand for the pairs reached together**.
-/

namespace FiniteState

/-! ### Short names for the states of a machine -/

namespace Machine

variable {κ : Type} [DecidableEq κ] {m : Machine κ} {k l : κ} {s : Symbol}

/-- The short name of a state: the name that the label of the state takes from the full
pool. -/
def shortName (m : Machine κ) (describe : κ → Label) (k : κ) : Label :=
  (m.toAutomaton describe).newName .full (m.label describe k)

namespace Lawful

variable (h : m.Lawful) (describe : κ → Label)

include h

theorem shortName_inj (hk : k ∈ m.states) (hl : l ∈ m.states)
    (heq : m.shortName describe k = m.shortName describe l) : k = l := by
  have hwf := h.wellFormed describe
  have hlabel : m.label describe k = m.label describe l :=
    hwf.injOn_newName .full (h.mem_states_toAutomaton.2 ⟨k, hk, rfl⟩)
      (h.mem_states_toAutomaton.2 ⟨l, hl, rfl⟩) heq
  exact label_inj hk hl hlabel

theorem mem_states_rename {q : Label} : q ∈ (m.toAutomaton describe).rename.states ↔
    ∃ k ∈ m.states, m.shortName describe k = q := by
  simp [Automaton.mem_states_rename, h.states_toAutomaton, shortName]

theorem initial_rename : (m.toAutomaton describe).rename.initial =
    m.initial.map (m.shortName describe) := by
  rw [Automaton.initial_rename, h.initial_toAutomaton, Option.map_map]
  rfl

theorem mem_finals_rename (hk : k ∈ m.states) :
    m.shortName describe k ∈ (m.toAutomaton describe).rename.finals ↔ m.accepting k = true := by
  rw [shortName,
    (h.wellFormed describe).mem_finals_rename (h.mem_states_toAutomaton.2 ⟨k, hk, rfl⟩),
    h.mem_finals_toAutomaton]
  constructor
  · rintro ⟨l, hl, haccepting, heq⟩
    rwa [← label_inj hl hk heq]
  · exact fun haccepting => ⟨k, hk, haccepting, rfl⟩

theorem mem_targets_rename (hk : k ∈ m.states) (hl : l ∈ m.states) :
    m.shortName describe l ∈
        (m.toAutomaton describe).rename.targets (m.shortName describe k) s ↔
      s ∈ m.alphabet ∧ m.step k s = some l := by
  rw [shortName, shortName, (h.wellFormed describe).mem_targets_rename
    (h.mem_states_toAutomaton.2 ⟨k, hk, rfl⟩) (h.mem_states_toAutomaton.2 ⟨l, hl, rfl⟩),
    h.mem_targets_toAutomaton hk]
  constructor
  · rintro ⟨hs, l', hl', heq⟩
    have hll' : l' = l := label_inj (h.step_mem hk hs hl') hl heq
    exact ⟨hs, hll' ▸ hl'⟩
  · rintro ⟨hs, hstep⟩
    exact ⟨hs, l, hstep, rfl⟩

end Lawful

end Machine

/-! ### Pairs of states -/

namespace Automaton

variable {fa fb : Automaton} {s : Symbol} {w : List Symbol} {i k l : Label × Label}

/-- **The pairs of states that two automata reach side by side**, from their initial
states and on the symbols that they share. -/
inductive ReachedTogether (fa fb : Automaton) : Label × Label → Prop
  /-- The pair of the initial states is reached, if both automata have one. -/
  | initial {p q : Label} :
    fa.initial = some p → fb.initial = some q → ReachedTogether fa fb (p, q)
  /-- A shared symbol leads from a pair to a pair. -/
  | step {p q p' q' : Label} {s : Symbol} :
    ReachedTogether fa fb (p, q) → s ∈ fa.alphabet → s ∈ fb.alphabet →
      p' ∈ fa.targets p s → q' ∈ fb.targets q s → ReachedTogether fa fb (p', q')

/-- **The states of an automaton stand for the pairs that two automata reach together**,
one for each pair, and the marks and transitions are those of the pairs. -/
structure SideBySide (fa fb fc : Automaton) (f : Label × Label → Label) : Prop where
  /-- Every state stands for one of the pairs, and every pair has one state. -/
  bijOn : Set.BijOn f {k | ReachedTogether fa fb k} {q | q ∈ fc.states}
  /-- No state is listed twice. -/
  states_nodup : fc.states.Nodup
  /-- The initial state stands for the pair of the initial states. -/
  initial : ∀ q, fc.initial = some q ↔
    ∃ k, fa.initial = some k.1 ∧ fb.initial = some k.2 ∧ f k = q
  /-- A state accepts iff both states of its pair do. -/
  finals : ∀ k, ReachedTogether fa fb k → (f k ∈ fc.finals ↔ k.1 ∈ fa.finals ∧ k.2 ∈ fb.finals)
  /-- A symbol leads to a state iff it leads both automata on to its pair. -/
  targets : ∀ k l s, ReachedTogether fa fb k → ReachedTogether fa fb l →
    (f l ∈ fc.targets (f k) s ↔ l.1 ∈ fa.targets k.1 s ∧ l.2 ∈ fb.targets k.2 s)

/-- Without an initial state on either side there is no state. -/
theorem SideBySide.states_eq_nil {fc : Automaton} {f : Label × Label → Label}
    (h : SideBySide fa fb fc f) (hnone : fa.initial = none ∨ fb.initial = none) :
    fc.states = [] := by
  have hpairs : ∀ k, ¬ ReachedTogether fa fb k := by
    intro k hk
    induction hk with
    | initial hp hq =>
      rcases hnone with hnone | hnone
      · rw [hnone] at hp
        cases hp
      · rw [hnone] at hq
        cases hq
    | step _ _ _ _ _ ih => exact ih
  rw [List.eq_nil_iff_forall_not_mem]
  intro q hq
  obtain ⟨k, hk, -⟩ := h.bijOn.surjOn hq
  exact hpairs k hk

theorem mem_alphabet_allPairs :
    s ∈ (allPairs fa fb).alphabet ↔ s ∈ fa.alphabet ∧ s ∈ fb.alphabet := by
  show s ∈ fa.alphabet.filter fb.hasSymbol ↔ _
  rw [List.mem_filter, hasSymbol_iff]

theorem accepting_pairs :
    (pairs fa fb).accepting k = true ↔ k.1 ∈ fa.finals ∧ k.2 ∈ fb.finals := by
  show (fa.isFinal k.1 && fb.isFinal k.2) = true ↔ _
  rw [Bool.and_eq_true, isFinal_iff, isFinal_iff]

/-- A run does not depend on which states are listed. -/
theorem runFrom_pairs : (pairs fa fb).runFrom k w = (allPairs fa fb).runFrom k w := by
  induction w generalizing k with
  | nil => rfl
  | cons s w ih =>
    show (if (allPairs fa fb).alphabet.contains s then
      ((allPairs fa fb).step k s).bind fun l => (pairs fa fb).runFrom l w else none) = _
    simp only [ih]
    rfl

namespace WellFormed

section Pairs

variable (hfa : fa.WellFormed) (hfb : fb.WellFormed) (hdeta : fa.Deterministic)
  (hdetb : fb.Deterministic)

include hfa hfb hdeta hdetb

/-- A step of the machine of pairs is a step of both automata. -/
theorem step_allPairs_iff : s ∈ (allPairs fa fb).alphabet ∧ (allPairs fa fb).step k s = some l ↔
    l.1 ∈ fa.targets k.1 s ∧ l.2 ∈ fb.targets k.2 s := by
  rw [step_allPairs_eq_some, hdeta.first?_eq_some, hdetb.first?_eq_some, mem_alphabet_allPairs]
  refine and_iff_right_of_imp ?_
  rintro ⟨hl, hl'⟩
  exact ⟨hfa.symbol_mem hl, hfb.symbol_mem hl'⟩

/-- **The machine of pairs runs both automata.** -/
theorem runFrom_allPairs_eq_some : (allPairs fa fb).runFrom k w = some l ↔
    fa.Path k.1 w l.1 ∧ fb.Path k.2 w l.2 := by
  induction w generalizing k with
  | nil =>
    rw [Machine.runFrom_nil, Option.some.injEq]
    constructor
    · rintro rfl
      exact ⟨.nil k.1, .nil k.2⟩
    · rintro ⟨hl, hl'⟩
      exact Prod.ext (hl.eq_of_nil hdeta.not_silent) (hl'.eq_of_nil hdetb.not_silent)
  | cons s w ih =>
    rw [Machine.runFrom_cons_eq_some, Path.cons_iff_of_not_silent hdeta.not_silent,
      Path.cons_iff_of_not_silent hdetb.not_silent]
    constructor
    · rintro ⟨hs, k', hk', hrun⟩
      obtain ⟨hp, hq⟩ := (step_allPairs_iff hfa hfb hdeta hdetb).1 ⟨hs, hk'⟩
      obtain ⟨hl, hl'⟩ := ih.1 hrun
      exact ⟨⟨k'.1, hp, hl⟩, k'.2, hq, hl'⟩
    · rintro ⟨⟨p, hp, hl⟩, q, hq, hl'⟩
      have hstep : s ∈ (allPairs fa fb).alphabet ∧ (allPairs fa fb).step k s = some (p, q) :=
        (step_allPairs_iff hfa hfb hdeta hdetb).2 ⟨hp, hq⟩
      exact ⟨hstep.1, (p, q), hstep.2, ih.2 ⟨hl, hl'⟩⟩

/-- **The states of the machine are the pairs that are reached together.** -/
theorem mem_states_pairs_iff : k ∈ (pairs fa fb).states ↔ ReachedTogether fa fb k := by
  rw [mem_states_pairs hfa hfb]
  constructor
  · rintro ⟨i, w, hi, hrun⟩
    obtain ⟨hp, hq⟩ := initial_allPairs_eq_some.1 hi
    have hreached : ReachedTogether fa fb i := .initial hp hq
    clear hi hp hq
    -- the run goes on from a pair that is reached
    induction w generalizing i with
    | nil => exact Option.some.inj hrun ▸ hreached
    | cons s w ih =>
      obtain ⟨hs, k', hk', hrun⟩ := Machine.runFrom_cons_eq_some.1 hrun
      obtain ⟨hp, hq⟩ := (step_allPairs_iff hfa hfb hdeta hdetb).1 ⟨hs, hk'⟩
      obtain ⟨hs, hs'⟩ := mem_alphabet_allPairs.1 hs
      exact ih k' hrun (.step hreached hs hs' hp hq)
  · intro hreached
    induction hreached with
    | initial hp hq => exact ⟨_, [], initial_allPairs_eq_some.2 ⟨hp, hq⟩, rfl⟩
    | @step p q p' q' s _ _ _ hp hq ih =>
      obtain ⟨i, w, hi, hrun⟩ := ih
      have hstep : s ∈ (allPairs fa fb).alphabet ∧ (allPairs fa fb).step (p, q) s = some (p', q') :=
        (step_allPairs_iff hfa hfb hdeta hdetb).2 ⟨hp, hq⟩
      exact ⟨i, w ++ [s], hi, Machine.runFrom_concat_eq_some hrun hstep.1 hstep.2⟩

/-- **The machine of pairs accepts the words of both automata.** -/
theorem accepts_pairs : (pairs fa fb).accepts w = true ↔
    fa.accepts w = true ∧ fb.accepts w = true := by
  have hrun : ∀ k l, (pairs fa fb).runFrom k w = some l ↔
      fa.Path k.1 w l.1 ∧ fb.Path k.2 w l.2 := by
    intro k l
    rw [runFrom_pairs, runFrom_allPairs_eq_some hfa hfb hdeta hdetb]
  have hinitial : ∀ k, (pairs fa fb).initial = some k ↔
      fa.initial = some k.1 ∧ fb.initial = some k.2 := fun _ => initial_allPairs_eq_some
  rw [Machine.accepts_iff, hfa.accepts_iff, hfb.accepts_iff]
  simp only [hinitial, hrun, accepting_pairs]
  constructor
  · rintro ⟨i, l, ⟨hp, hq⟩, ⟨hpath, hpath'⟩, hfinal, hfinal'⟩
    exact ⟨⟨i.1, hp, l.1, hfinal, hpath⟩, i.2, hq, l.2, hfinal', hpath'⟩
  · rintro ⟨⟨p, hp, f, hfinal, hpath⟩, q, hq, f', hfinal', hpath'⟩
    exact ⟨(p, q), (f, f'), ⟨hp, hq⟩, ⟨hpath, hpath'⟩, hfinal, hfinal'⟩

/-- The automaton of the pairs has a state for each of them. -/
theorem sideBySide_pairs (describe : Label × Label → Label) :
    SideBySide fa fb ((pairs fa fb).toAutomaton describe).rename
      ((pairs fa fb).shortName describe) := by
  have hlawful := lawful_pairs hfa hfb hdeta
  have hmem : ∀ {k}, ReachedTogether fa fb k ↔ k ∈ (pairs fa fb).states :=
    (mem_states_pairs_iff hfa hfb hdeta hdetb).symm
  refine ⟨⟨?_, ?_, ?_⟩, (hlawful.wellFormed describe).rename.states_nodup, ?_, ?_, ?_⟩
  · intro k hk
    exact (hlawful.mem_states_rename describe).2 ⟨k, hmem.1 hk, rfl⟩
  · intro k hk l hl heq
    exact hlawful.shortName_inj describe (hmem.1 hk) (hmem.1 hl) heq
  · intro q hq
    obtain ⟨k, hk, rfl⟩ := (hlawful.mem_states_rename describe).1 hq
    exact ⟨k, hmem.2 hk, rfl⟩
  · intro q
    rw [hlawful.initial_rename describe, Option.map_eq_some_iff]
    constructor
    · rintro ⟨k, hk, heq⟩
      obtain ⟨hp, hq⟩ := initial_allPairs_eq_some.1 hk
      exact ⟨k, hp, hq, heq⟩
    · rintro ⟨k, hp, hq, heq⟩
      exact ⟨k, initial_allPairs_eq_some.2 ⟨hp, hq⟩, heq⟩
  · intro k hk
    rw [hlawful.mem_finals_rename describe (hmem.1 hk)]
    exact accepting_pairs
  · intro k l s hk hl
    rw [hlawful.mem_targets_rename describe (hmem.1 hk) (hmem.1 hl)]
    exact step_allPairs_iff hfa hfb hdeta hdetb

end Pairs

/-- **The intersection of two automata accepts the words of both**, is deterministic,
and has a state for each pair that the two reach together. -/
theorem exists_intersection_sideBySide (hfa : fa.WellFormed) (hfb : fb.WellFormed)
    (hflaga : fa.determinized = true) (hflagb : fb.determinized = true) :
    ∃ c, fa.intersection fb = .ok c ∧ c.isDeterministic = true ∧
      (∀ w, c.accepts w = true ↔ fa.accepts w = true ∧ fb.accepts w = true) ∧
      ∃ f, SideBySide fa fb c f := by
  have hdeta := hfa.deterministic hflaga
  have hdetb := hfb.deterministic hflagb
  have hlawful := lawful_pairs hfa hfb hdeta
  have hwf := hlawful.wellFormed fun k => k.1 ++ k.2
  have hok : fa.intersection fb =
      .ok ((pairs fa fb).toAutomaton fun k => k.1 ++ k.2).rename := by
    rw [Automaton.intersection, bothDeterminized, hflaga, hflagb, Bool.and_self, if_pos rfl]
  refine ⟨_, hok, ?_, fun w => ?_, _, sideBySide_pairs hfa hfb hdeta hdetb _⟩
  · exact hwf.rename.isDeterministic_iff.2 (hwf.rename.deterministic rfl)
  · rw [hwf.accepts_rename, hlawful.accepts_toAutomaton, accepts_pairs hfa hfb hdeta hdetb]

end WellFormed

end Automaton

end FiniteState
