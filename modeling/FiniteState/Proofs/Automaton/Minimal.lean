import FiniteState.Automaton.Minimal
import FiniteState.Proofs.Automaton.Distinguish
import FiniteState.Proofs.Automaton.Machine
import FiniteState.Proofs.Automaton.Reduced

/-!
# Minimization yields a reduced automaton

The states of a trimmed automaton are numbered, and a sink is put after them that
accepts nothing.  Numbers are distinguishable exactly when they do not accept the
same words.  Every state accepts some word, so the sink is alone in its class: to
leave it out takes away no state and no word.  What is left is the automaton with
one state for each set of words that is accepted from some state.

## Main definitions

* `Automaton.NumberAccepts` — the words accepted from the state with a number.
* `Automaton.least` — the least number that accepts the same words.

## Main results

* `Trimmed.distinguishable_iff` — **numbers are distinguishable iff they do not accept
  the same words**.
* `Trimmed.least_eq_sink_iff` — **the sink is merged with no state**.
* `Trimmed.reduced_quotient`, `Trimmed.accepts_quotient` — the quotient is reduced and
  keeps the language.
* `WellFormed.exists_minimize` — **minimization yields a reduced automaton for the
  language**.
-/

namespace FiniteState.Automaton

variable {fa : Automaton} {q r : Label} {s : Symbol} {w : List Symbol}

/-! ### Numbers -/

theorem numberedState?_sink (fa : Automaton) : fa.numberedState? fa.sink = none := by
  simp [numberedState?, sink]

theorem numberedState?_number (hq : q ∈ fa.states) :
    fa.numberedState? (fa.number q) = some q := by
  have hlt : fa.states.idxOf q < fa.states.length := List.idxOf_lt_length_of_mem hq
  unfold numberedState? number
  rw [List.getElem?_eq_getElem hlt, List.getElem_idxOf]

theorem number_ne_sink (hq : q ∈ fa.states) : fa.number q ≠ fa.sink := by
  intro heq
  have := fa.numberedState?_sink
  rw [← heq, numberedState?_number hq] at this
  cases this

/-- Every number but that of the sink is the number of a state. -/
theorem exists_number_eq (hnd : fa.states.Nodup) {u : Fin (fa.states.length + 1)}
    (hu : u ≠ fa.sink) : ∃ q ∈ fa.states, fa.number q = u := by
  have hlt : u.val < fa.states.length := by
    have hne : u.val ≠ fa.states.length := fun heq => hu (Fin.ext heq)
    have := u.isLt
    omega
  refine ⟨fa.states[u.val], List.getElem_mem hlt, Fin.ext ?_⟩
  exact hnd.idxOf_getElem u.val hlt

theorem numberedStep_sink (fa : Automaton) (s : Symbol) :
    fa.numberedStep fa.sink s = fa.sink := by
  rw [numberedStep, numberedState?_sink]
  rfl

theorem numberedStep_of_mem (hdet : fa.Deterministic) (hr : r ∈ fa.targets q s) :
    fa.numberedStep (fa.number q) s = fa.number r := by
  have hq := mem_states_of_mem_targets _ hr
  rw [numberedStep, numberedState?_number hq, Option.bind_some, hdet.first?_eq_some.2 hr]

theorem numberedStep_of_none (hdet : fa.Deterministic) (hq : q ∈ fa.states)
    (hnone : ∀ r, r ∉ fa.targets q s) : fa.numberedStep (fa.number q) s = fa.sink := by
  rw [numberedStep, numberedState?_number hq, Option.bind_some]
  cases hfirst : (fa.targets q s).first? with
  | none => rfl
  | some r => exact absurd (hdet.first?_eq_some.1 hfirst) (hnone r)

/-! ### Words accepted from a number -/

/-- The word is accepted from the state with the number; the sink accepts none. -/
def NumberAccepts (fa : Automaton) (u : Fin (fa.states.length + 1)) (w : List Symbol) : Prop :=
  ∃ q, fa.numberedState? u = some q ∧ fa.AcceptsFrom q w

theorem not_numberAccepts_sink : ¬ fa.NumberAccepts fa.sink w := by
  rintro ⟨q, hq, -⟩
  rw [numberedState?_sink] at hq
  cases hq

theorem numberAccepts_number (hq : q ∈ fa.states) :
    fa.NumberAccepts (fa.number q) w ↔ fa.AcceptsFrom q w := by
  simp [NumberAccepts, numberedState?_number hq]

/-- The least number that is not distinguishable from a number. -/
def least (fa : Automaton) (u : Fin (fa.states.length + 1)) : Fin (fa.states.length + 1) :=
  fa.numbered.distinguish.representative u

theorem mem_steps_numbered {step : Vector (Fin (fa.states.length + 1)) (fa.states.length + 1)} :
    step ∈ fa.numbered.steps ↔ ∃ s ∈ fa.alphabet, Vector.ofFn (fa.numberedStep · s) = step :=
  List.mem_map

theorem get_numberedStep (fa : Automaton) (s : Symbol) (u : Fin (fa.states.length + 1)) :
    (Vector.ofFn (fa.numberedStep · s)).get u = fa.numberedStep u s :=
  Vector.getElem_ofFn u.isLt

theorem get_accepting_numbered (fa : Automaton) (u : Fin (fa.states.length + 1)) :
    fa.numbered.accepting.get u = fa.numberedAccepting u :=
  Vector.getElem_ofFn u.isLt

namespace Trimmed

variable (h : fa.Trimmed) {u v : Fin (fa.states.length + 1)}

include h

theorem numberAccepts_nil : fa.NumberAccepts u [] ↔ fa.numberedAccepting u = true := by
  simp [NumberAccepts, numberedAccepting, acceptsFrom_nil_iff h.deterministic.not_silent,
    isFinal_iff, Option.any_eq_true]

/-- The numbers that accept a word follow those that accept its rest. -/
theorem numberAccepts_cons :
    fa.NumberAccepts u (s :: w) ↔ fa.NumberAccepts (fa.numberedStep u s) w := by
  by_cases hu : u = fa.sink
  · subst hu
    rw [numberedStep_sink]
    exact iff_of_false not_numberAccepts_sink not_numberAccepts_sink
  · obtain ⟨q, hq, rfl⟩ := exists_number_eq h.wellFormed.states_nodup hu
    rw [numberAccepts_number hq, acceptsFrom_cons_iff h.deterministic.not_silent]
    by_cases hstep : ∃ r, r ∈ fa.targets q s
    · obtain ⟨r, hr⟩ := hstep
      rw [numberedStep_of_mem h.deterministic hr,
        numberAccepts_number (h.wellFormed.target_mem hr)]
      constructor
      · rintro ⟨r', hr', haccepts⟩
        rwa [h.deterministic.target_unique hr hr']
      · exact fun haccepts => ⟨r, hr, haccepts⟩
    · rw [numberedStep_of_none h.deterministic hq (not_exists.1 hstep)]
      refine iff_of_false ?_ not_numberAccepts_sink
      rintro ⟨r, hr, -⟩
      exact hstep ⟨r, hr⟩

/-- No word is accepted with a symbol outside of the alphabet. -/
theorem not_numberAccepts_of_notMem (hs : s ∉ fa.alphabet) : ¬ fa.NumberAccepts u (s :: w) := by
  rintro ⟨q, -, haccepts⟩
  obtain ⟨r, hr, -⟩ := (acceptsFrom_cons_iff h.deterministic.not_silent).1 haccepts
  exact hs (h.wellFormed.symbol_mem hr)

/-- **Numbers are distinguishable iff they do not accept the same words.** -/
theorem distinguishable_iff : fa.numbered.Distinguishable u v ↔
    ∃ w, ¬ (fa.NumberAccepts u w ↔ fa.NumberAccepts v w) := by
  constructor
  · intro hdist
    induction hdist with
    | @now u v hne =>
      refine ⟨[], fun hiff => hne ?_⟩
      rw [h.numberAccepts_nil, h.numberAccepts_nil] at hiff
      rw [get_accepting_numbered, get_accepting_numbered]
      exact Bool.eq_iff_iff.2 hiff
    | later hstep _ ih =>
      obtain ⟨s, -, rfl⟩ := mem_steps_numbered.1 hstep
      obtain ⟨w, hw⟩ := ih
      rw [get_numberedStep, get_numberedStep, ← h.numberAccepts_cons,
        ← h.numberAccepts_cons] at hw
      exact ⟨s :: w, hw⟩
  · rintro ⟨w, hw⟩
    induction w generalizing u v with
    | nil =>
      refine .now fun heq => hw ?_
      rw [get_accepting_numbered, get_accepting_numbered] at heq
      rw [h.numberAccepts_nil, h.numberAccepts_nil, heq]
    | cons s w ih =>
      -- with another symbol neither accepts anything
      have hs : s ∈ fa.alphabet := by
        by_contra hs
        exact hw (iff_of_false (h.not_numberAccepts_of_notMem hs)
          (h.not_numberAccepts_of_notMem hs))
      refine .later (mem_steps_numbered.2 ⟨s, hs, rfl⟩) ?_
      rw [h.numberAccepts_cons, h.numberAccepts_cons] at hw
      rw [get_numberedStep, get_numberedStep]
      exact ih hw

theorem least_eq_iff : fa.least u = fa.least v ↔
    ∀ w, fa.NumberAccepts u w ↔ fa.NumberAccepts v w := by
  unfold least
  rw [NumberedMachine.representative_eq_iff, h.distinguishable_iff, not_exists]
  simp only [not_not]

/-- The least number accepts the same words. -/
theorem numberAccepts_least : fa.NumberAccepts (fa.least u) w ↔ fa.NumberAccepts u w := by
  have := fa.numbered.not_distinguishable_representative u
  rw [h.distinguishable_iff, not_exists] at this
  exact not_not.1 (this w)

theorem least_least : fa.least (fa.least u) = fa.least u :=
  h.least_eq_iff.2 fun _ => h.numberAccepts_least

/-- Every number but that of the sink accepts some word. -/
theorem exists_numberAccepts (hu : u ≠ fa.sink) : ∃ w, fa.NumberAccepts u w := by
  obtain ⟨q, hq, rfl⟩ := exists_number_eq h.wellFormed.states_nodup hu
  obtain ⟨w, hw⟩ := h.useful hq
  exact ⟨w, (numberAccepts_number hq).2 hw⟩

/-- **The sink is merged with no state.** -/
theorem least_eq_sink_iff : fa.least u = fa.sink ↔ u = fa.sink := by
  constructor
  · -- a word that tells the state from the sink would be accepted from the sink
    intro hleast
    by_contra hu
    obtain ⟨w, hw⟩ := h.exists_numberAccepts hu
    rw [← h.numberAccepts_least, hleast] at hw
    exact not_numberAccepts_sink hw
  · rintro rfl
    by_contra hne
    obtain ⟨w, hw⟩ := h.exists_numberAccepts hne
    rw [h.numberAccepts_least] at hw
    exact not_numberAccepts_sink hw

end Trimmed

/-! ### The quotient -/

theorem mem_states_quotient {u : Fin (fa.states.length + 1)} :
    u ∈ fa.quotient.states ↔ u ≠ fa.sink ∧ fa.least u = u := by
  show u ∈ (List.finRange _).filter
    (fun u => u != fa.sink && fa.numbered.distinguish.representatives.get u == u) ↔ _
  rw [List.mem_filter, Bool.and_eq_true, bne_iff_ne, beq_iff_eq,
    NumberedMachine.get_representatives]
  exact and_iff_right (List.mem_finRange u)

theorem step_quotient_eq_some {u v : Fin (fa.states.length + 1)} :
    fa.quotient.step u s = some v ↔
      fa.least (fa.numberedStep u s) = v ∧ v ≠ fa.sink := by
  have hget := NumberedMachine.get_representatives fa.numbered.distinguish (fa.numberedStep u s)
  show (if fa.numbered.distinguish.representatives.get (fa.numberedStep u s) = fa.sink then none
    else some (fa.numbered.distinguish.representatives.get (fa.numberedStep u s))) = some v ↔ _
  rw [hget, ← least]
  exact some_unless_eq_some (P := fun v => v = fa.sink)

theorem initial_quotient (fa : Automaton) :
    fa.quotient.initial = fa.initial.map fun q => fa.least (fa.number q) := by
  show fa.initial.map (fun q => fa.numbered.distinguish.representatives.get (fa.number q)) = _
  simp only [NumberedMachine.get_representatives]
  rfl

namespace Trimmed

variable (h : fa.Trimmed) {u v : Fin (fa.states.length + 1)}

include h

theorem least_number_mem (hq : q ∈ fa.states) :
    fa.least (fa.number q) ∈ fa.quotient.states :=
  mem_states_quotient.2
    ⟨fun hsink => number_ne_sink hq (h.least_eq_sink_iff.1 hsink), h.least_least⟩

/-- Every state of the quotient is the least number of a state. -/
theorem exists_least_number_eq (hu : u ∈ fa.quotient.states) :
    ∃ q ∈ fa.states, fa.least (fa.number q) = u := by
  obtain ⟨hsink, hleast⟩ := mem_states_quotient.1 hu
  obtain ⟨q, hq, rfl⟩ := exists_number_eq h.wellFormed.states_nodup hsink
  exact ⟨q, hq, hleast⟩

theorem lawful_quotient : fa.quotient.Lawful where
  states_nodup := (List.nodup_finRange _).filter _
  alphabet_nodup := h.wellFormed.alphabet_nodup
  initial_mem hi := by
    rw [initial_quotient, Option.map_eq_some_iff] at hi
    obtain ⟨p, hp, rfl⟩ := hi
    exact h.least_number_mem (h.wellFormed.initial_mem hp)
  step_mem _ _ hv := by
    obtain ⟨rfl, hsink⟩ := step_quotient_eq_some.1 hv
    exact mem_states_quotient.2 ⟨hsink, h.least_least⟩
  not_silent _ hs := by
    -- a symbol in use leads somewhere, which the marker does not
    obtain ⟨q, r, hr⟩ := h.used hs
    exact absurd hr h.deterministic.not_silent

/-- **A path of the automaton is a run of the quotient.** -/
theorem runFrom_quotient (hpath : fa.Path q w r) :
    fa.quotient.runFrom (fa.least (fa.number q)) w = some (fa.least (fa.number r)) := by
  induction w generalizing q with
  | nil =>
    rw [hpath.eq_of_nil h.deterministic.not_silent]
    rfl
  | cons s w ih =>
    obtain ⟨q', hq', htail⟩ := (Path.cons_iff_of_not_silent h.deterministic.not_silent).1 hpath
    have hstate := h.wellFormed.target_mem hq'
    refine Machine.runFrom_cons_eq_some.2 ⟨h.wellFormed.symbol_mem hq', _, ?_, ih htail⟩
    refine step_quotient_eq_some.2 ⟨h.least_eq_iff.2 fun v => ?_, ?_⟩
    · rw [← h.numberAccepts_cons, h.numberAccepts_least, h.numberAccepts_cons,
        numberedStep_of_mem h.deterministic hq']
    · exact (mem_states_quotient.1 (h.least_number_mem hstate)).1

/-- **A state of the quotient accepts the words of its number.** -/
theorem runFrom_quotient_accepting (hu : u ∈ fa.quotient.states) :
    (∃ v, fa.quotient.runFrom u w = some v ∧ fa.quotient.accepting v = true) ↔
      fa.NumberAccepts u w := by
  induction w generalizing u with
  | nil =>
    rw [h.numberAccepts_nil]
    simp only [Machine.runFrom_nil, Option.some.injEq, exists_eq_left']
    rfl
  | cons s w ih =>
    rw [h.numberAccepts_cons, ← h.numberAccepts_least]
    constructor
    · rintro ⟨v, hv, ha⟩
      obtain ⟨hs, u', hu', hv⟩ := Machine.runFrom_cons_eq_some.1 hv
      have hmem := h.lawful_quotient.step_mem hu hs hu'
      obtain ⟨rfl, -⟩ := step_quotient_eq_some.1 hu'
      exact (ih hmem).1 ⟨v, hv, ha⟩
    · intro haccepts
      have hsink : fa.least (fa.numberedStep u s) ≠ fa.sink := by
        intro hsink
        rw [hsink] at haccepts
        exact not_numberAccepts_sink haccepts
      have hs : s ∈ fa.alphabet := by
        by_contra hs
        rw [h.numberAccepts_least, ← h.numberAccepts_cons] at haccepts
        exact h.not_numberAccepts_of_notMem hs haccepts
      obtain ⟨v, hv, ha⟩ := (ih (mem_states_quotient.2 ⟨hsink, h.least_least⟩)).2 haccepts
      exact ⟨v, Machine.runFrom_cons_eq_some.2
        ⟨hs, _, step_quotient_eq_some.2 ⟨rfl, hsink⟩, hv⟩, ha⟩

theorem accepts_quotient : fa.quotient.accepts w = fa.accepts w := by
  rw [Bool.eq_iff_iff, Machine.accepts_iff, h.wellFormed.accepts_iff, initial_quotient]
  simp only [Option.map_eq_some_iff]
  constructor
  · intro hrun
    obtain ⟨_, v, ⟨p, hp, rfl⟩, hv, ha⟩ := hrun
    have hstate := h.wellFormed.initial_mem hp
    have := (h.runFrom_quotient_accepting (h.least_number_mem hstate)).1 ⟨v, hv, ha⟩
    rw [h.numberAccepts_least, numberAccepts_number hstate] at this
    exact ⟨p, hp, this⟩
  · rintro ⟨p, hp, haccepts⟩
    have hstate := h.wellFormed.initial_mem hp
    rw [← numberAccepts_number hstate, ← h.numberAccepts_least] at haccepts
    obtain ⟨v, hv, ha⟩ := (h.runFrom_quotient_accepting (h.least_number_mem hstate)).2 haccepts
    exact ⟨_, v, ⟨p, hp, rfl⟩, hv, ha⟩

variable {describe : Fin (fa.states.length + 1) → Label}

theorem acceptsFrom_quotient (hq : q ∈ fa.states) :
    (fa.quotient.toAutomaton describe).AcceptsFrom
      (fa.quotient.label describe (fa.least (fa.number q))) w ↔ fa.AcceptsFrom q w := by
  have hmem := h.least_number_mem hq
  rw [h.lawful_quotient.acceptsFrom_toAutomaton hmem, h.runFrom_quotient_accepting hmem,
    h.numberAccepts_least, numberAccepts_number hq]

theorem path_quotient (hpath : fa.Path q w r) (hq : q ∈ fa.states) :
    (fa.quotient.toAutomaton describe).Path
      (fa.quotient.label describe (fa.least (fa.number q))) w
      (fa.quotient.label describe (fa.least (fa.number r))) :=
  (h.lawful_quotient.path_toAutomaton (h.least_number_mem hq)).2
    ⟨_, h.runFrom_quotient hpath, rfl⟩

theorem mem_states_quotient_automaton {x : Label} :
    x ∈ (fa.quotient.toAutomaton describe).states ↔
      ∃ q ∈ fa.states, fa.quotient.label describe (fa.least (fa.number q)) = x := by
  rw [h.lawful_quotient.mem_states_toAutomaton]
  constructor
  · rintro ⟨u, hu, rfl⟩
    obtain ⟨q, hq, rfl⟩ := h.exists_least_number_eq hu
    exact ⟨q, hq, rfl⟩
  · rintro ⟨q, hq, rfl⟩
    exact ⟨_, h.least_number_mem hq, rfl⟩

/-- **The quotient of a trimmed automaton is reduced.** -/
theorem reduced_quotient (describe : Fin (fa.states.length + 1) → Label) :
    (fa.quotient.toAutomaton describe).Reduced where
  wellFormed := h.lawful_quotient.wellFormed describe
  deterministic := h.lawful_quotient.deterministic_toAutomaton describe
  reached hx := by
    obtain ⟨q, hq, rfl⟩ := h.mem_states_quotient_automaton.1 hx
    obtain ⟨p, w, hp, hpath⟩ := h.reached hq
    refine ⟨_, w, ?_, h.path_quotient hpath (h.wellFormed.initial_mem hp)⟩
    rw [h.lawful_quotient.initial_toAutomaton, initial_quotient, hp]
    rfl
  useful hx := by
    obtain ⟨q, hq, rfl⟩ := h.mem_states_quotient_automaton.1 hx
    obtain ⟨w, hw⟩ := h.useful hq
    exact ⟨w, (h.acceptsFrom_quotient hq).2 hw⟩
  used {s} hs := by
    obtain ⟨q, r, hr⟩ := h.used hs
    have hq := mem_states_of_mem_targets _ hr
    have hpath : fa.Path q [s] r :=
      (Path.cons_iff_of_not_silent h.deterministic.not_silent).2 ⟨r, hr, .nil r⟩
    have hdet := h.lawful_quotient.deterministic_toAutomaton describe
    obtain ⟨x, hx, -⟩ := (Path.cons_iff_of_not_silent hdet.not_silent).1 (h.path_quotient hpath hq)
    exact ⟨_, x, hx⟩
  separated hx hy hmatch := by
    obtain ⟨q, hq, rfl⟩ := h.mem_states_quotient_automaton.1 hx
    obtain ⟨r, hr, rfl⟩ := h.mem_states_quotient_automaton.1 hy
    refine congrArg _ (h.least_eq_iff.2 fun w => ?_)
    rw [numberAccepts_number hq, numberAccepts_number hr, ← h.acceptsFrom_quotient hq,
      ← h.acceptsFrom_quotient hr]
    exact hmatch w

end Trimmed

/-! ### The smallest automaton -/

/-- The automaton without states is reduced. -/
theorem reduced_empty : (empty.withDeterminized true).Reduced where
  wellFormed :=
    { wellFormed_empty with
      deterministic := fun _ =>
        ⟨fun hr => absurd (mem_states_of_mem_targets _ hr) List.not_mem_nil,
          fun hr => absurd (mem_states_of_mem_targets _ hr) List.not_mem_nil⟩ }
  deterministic :=
    ⟨fun hr => absurd (mem_states_of_mem_targets _ hr) List.not_mem_nil,
      fun hr => absurd (mem_states_of_mem_targets _ hr) List.not_mem_nil⟩
  reached hq := absurd hq List.not_mem_nil
  useful hq := absurd hq List.not_mem_nil
  used hs := absurd hs List.not_mem_nil
  separated hq := absurd hq List.not_mem_nil

/-- The automaton without states is the result when no state is reached and useful. -/
theorem minimize_of_initial_none (hflag : fa.determinized = true)
    (hnone : fa.live.initial = none) : fa.minimize = .ok (empty.withDeterminized true) := by
  simp only [minimize, if_pos hflag, hnone, Option.isNone_none, if_true]

/-- Otherwise the quotient is renamed. -/
theorem minimize_of_initial_some (hflag : fa.determinized = true)
    (hp : fa.live.initial = some p) :
    fa.minimize = .ok (fa.live.quotient.toAutomaton
      fun u => (fa.live.numberedState? u).getD "").rename := by
  simp only [minimize, if_pos hflag, hp, Option.isNone_some, Bool.false_eq_true, if_false]

/-- Only automata flagged as determinized are minimized. -/
theorem determinized_of_minimize_eq_ok {fb : Automaton} (h : fa.minimize = .ok fb) :
    fa.determinized = true := by
  by_contra hflag
  rw [minimize, if_neg hflag] at h
  cases h

/-- **Minimization yields a reduced automaton for the language.** -/
theorem WellFormed.exists_minimize (h : fa.WellFormed) (hflag : fa.determinized = true) :
    ∃ m, fa.minimize = .ok m ∧ m.Reduced ∧ m.determinized = true ∧ m.SameLanguage fa := by
  have htrimmed := h.trimmed_live (h.deterministic hflag)
  cases hp : fa.live.initial with
  | none =>
    -- without an initial state nothing is accepted, before and after
    refine ⟨_, minimize_of_initial_none hflag hp, reduced_empty, rfl, fun w => ?_⟩
    rw [← h.accepts_live, Bool.eq_iff_iff, reduced_empty.wellFormed.accepts_iff,
      htrimmed.wellFormed.accepts_iff, hp]
    exact iff_of_false (fun ⟨_, hinitial, _⟩ => by cases hinitial)
      fun ⟨_, hinitial, _⟩ => by cases hinitial
  | some p =>
    have hreduced := htrimmed.reduced_quotient fun u => (fa.live.numberedState? u).getD ""
    have hflagged := determinized_rename
      (fa.live.quotient.toAutomaton fun u => (fa.live.numberedState? u).getD "")
    refine ⟨_, minimize_of_initial_some hflag hp, hreduced.rename, hflagged, fun w => ?_⟩
    rw [hreduced.wellFormed.accepts_rename, htrimmed.lawful_quotient.accepts_toAutomaton,
      htrimmed.accepts_quotient, h.accepts_live]

end FiniteState.Automaton
