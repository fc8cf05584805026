import FiniteState.Proofs.Automaton.Discovered
import FiniteState.Proofs.Automaton.Language
import FiniteState.Proofs.Automaton.LiveSets
import FiniteState.Proofs.Automaton.Same

/-!
# Determinizing or minimizing twice

What determinization and minimization yield is as they would yield it: determinized or
minimized again it is not only accepted for the same words, it is the same table, with the
same names in the same order.  A determinized automaton lists its states as they are
discovered, so they are discovered in this order again; no two states of a minimized one are
merged, so each represents itself, and the sink is left out again.  Nothing is trimmed, and
the short names stay, also the numbered ones.  So a second command reports no change.

## Main results

* `Reduced.toAutomaton_quotient` — a reduced table is its own quotient.
* `WellFormed.determinize_determinize`, `WellFormed.minimize_minimize` — **determinization
  and minimization are idempotent**.
* `Obtainable.idempotent` — this, and what the commands report.
-/

namespace FiniteState.Automaton

variable {fa m : Automaton} {q : Label}

/-! ### Determinization -/

/-- A constructed and trimmed table in the order of discovery, whose states have the names
that they would get, is determinized already. -/
theorem Constructed.determinize_eq_self (h : fa.Constructed) (hdisc : fa.Discovered)
    (htrimmed : fa.Trimmed) (hnames : fa.rename = fa) : fa.determinize = fa := by
  have hsilent : Symbol.epsilon ∉ fa.alphabet := by
    intro hs
    obtain ⟨q, r, hr⟩ := htrimmed.used hs
    exact htrimmed.deterministic.not_silent hr
  have hbuilt := h.toAutomaton_powerset hdisc hsilent
  simp only [determinize, hbuilt, h.removeUseless_eq htrimmed, hnames, ite_self]

/-- **Determinizing twice is determinizing once.** -/
theorem WellFormed.determinize_determinize (h : fa.WellFormed) :
    fa.determinize.determinize = fa.determinize := by
  have hconstructed := h.lawful_powerset.constructed LabelSet.describe
  have hdisc := h.discovered_powerset
  have hbuilt := hconstructed.wellFormed
  by_cases hinitial : fa.initial = none
  · -- without an initial state only the symbols are left, and the marker is none of them
    have hnone : fa.powerset.initial = none := by
      unfold powerset Machine.discovered start
      rw [hinitial]
      rfl
    have hresult : fa.determinize = fa.powerset.toAutomaton LabelSet.describe := by
      rw [Automaton.determinize, hnone]
      rfl
    have hsilent : Symbol.epsilon ∉ (fa.powerset.toAutomaton LabelSet.describe).alphabet :=
      fun hs => (mem_alphabet_powerset.1 hs).2 rfl
    have hnone' : (fa.powerset.toAutomaton LabelSet.describe).powerset.initial = none := by
      rw [hconstructed.deterministic.initial_powerset hbuilt, h.lawful_powerset.initial_toAutomaton,
        hnone]
      rfl
    rw [hresult, Automaton.determinize, hnone', hconstructed.toAutomaton_powerset hdisc hsilent]
    rfl
  · have htrimmed := h.trimmed_determinize hinitial
    rw [h.determinize_eq hinitial] at htrimmed ⊢
    refine hconstructed.removeUseless.rename.determinize_eq_self ?_ htrimmed
      hbuilt.removeUseless.rename_rename
    exact (hdisc.removeUseless hbuilt).rename hbuilt.removeUseless
      hconstructed.removeUseless.deterministic

/-! ### Minimization -/

theorem numberedState?_getD_number (hq : q ∈ fa.states) :
    (fa.numberedState? (fa.number q)).getD "" = q := by
  rw [numberedState?_number hq, Option.getD_some]

/-- The numbers without the sink stand for the states, in order. -/
theorem map_numberedState? (fa : Automaton) :
    ((List.finRange (fa.states.length + 1)).filter fun u => u != fa.sink).map
      (fun u => (fa.numberedState? u).getD "") = fa.states := by
  have hstates : (List.finRange (fa.states.length + 1)).filter (fun u => u != fa.sink) =
      (List.finRange fa.states.length).map Fin.castSucc := by
    rw [List.finRange_succ_last, List.filter_append, List.filter_map]
    have hkept : (List.finRange fa.states.length).filter
        ((fun u => u != fa.sink) ∘ Fin.castSucc) = List.finRange fa.states.length := by
      refine List.filter_eq_self.2 fun i _ => ?_
      simp [sink, Fin.castSucc_ne_last]
    rw [hkept]
    simp [sink]
  rw [hstates, List.map_map]
  have hget : ((fun u => (fa.numberedState? u).getD "") ∘ Fin.castSucc) = fa.states.get := by
    funext i
    simp [numberedState?]
  rw [hget, ← List.ofFn_eq_map, List.ofFn_get]

namespace Reduced

variable (h : fa.Reduced)

include h

/-- Every state represents itself. -/
theorem least_eq_self (u : Fin (fa.states.length + 1)) : fa.least u = u := by
  have htrimmed := h.toTrimmed
  have hnd := h.wellFormed.states_nodup
  by_cases hu : u = fa.sink
  · rw [hu, htrimmed.least_eq_sink_iff]
  · obtain ⟨q, hq, hqu⟩ := exists_number_eq hnd hu
    obtain ⟨r, hr, hru⟩ := exists_number_eq hnd (mt htrimmed.least_eq_sink_iff.1 hu)
    -- a state accepts the words of the state that represents it
    have hmatch : fa.Matching fa r q := by
      intro w
      rw [← numberAccepts_number hr, ← numberAccepts_number hq, hqu, hru,
        htrimmed.numberAccepts_least]
    rw [← hru, ← hqu, h.separated hr hq hmatch]

theorem step_quotient_iff (hq : q ∈ fa.states) {s : Symbol} {r : Label} :
    r ∈ fa.targets q s ↔ s ∈ fa.alphabet ∧ ∃ u,
      fa.quotient.step (fa.number q) s = some u ∧ (fa.numberedState? u).getD "" = r := by
  simp only [step_quotient_eq_some, h.least_eq_self]
  constructor
  · intro hr
    have hmem := h.wellFormed.target_mem hr
    refine ⟨h.wellFormed.symbol_mem hr, fa.number r, ⟨?_, number_ne_sink hmem⟩,
      numberedState?_getD_number hmem⟩
    exact numberedStep_of_mem h.deterministic hr
  · rintro ⟨-, u, ⟨rfl, hsink⟩, hr⟩
    by_cases hstep : ∃ r, r ∈ fa.targets q s
    · obtain ⟨r', hr'⟩ := hstep
      rw [numberedStep_of_mem h.deterministic hr',
        numberedState?_getD_number (h.wellFormed.target_mem hr')] at hr
      rwa [← hr]
    · exact absurd (numberedStep_of_none h.deterministic hq (not_exists.1 hstep)) hsink

/-- **A reduced table is its own quotient.** -/
theorem toAutomaton_quotient (hfa : fa.Constructed) :
    fa.quotient.toAutomaton (fun u => (fa.numberedState? u).getD "") = fa := by
  have hlawful := h.toTrimmed.lawful_quotient
  have hnumber : ∀ u ∈ fa.quotient.states, ∃ q ∈ fa.states, fa.number q = u := fun u hu =>
    exists_number_eq h.wellFormed.states_nodup (mem_states_quotient.1 hu).1
  have hstates : fa.quotient.states =
      (List.finRange (fa.states.length + 1)).filter fun u => u != fa.sink := by
    refine List.filter_congr fun u _ => ?_
    have hleast : fa.numbered.distinguish.representatives.get u = u := by
      rw [NumberedMachine.get_representatives]
      exact h.least_eq_self u
    show (u != fa.sink && fa.numbered.distinguish.representatives.get u == u) = (u != fa.sink)
    rw [hleast, beq_self_eq_true, Bool.and_true]
  refine hlawful.toAutomaton_eq hfa ?_ rfl ?_ (fun u hu => ?_) fun u hu s r => ?_
  · rw [hstates, map_numberedState?]
  · rw [initial_quotient, Option.map_map]
    cases hp : fa.initial with
    | none => rfl
    | some p =>
      refine congrArg some ?_
      rw [Function.comp_apply, h.least_eq_self,
        numberedState?_getD_number (h.wellFormed.initial_mem hp)]
  · obtain ⟨q, hq, rfl⟩ := hnumber u hu
    rw [numberedState?_getD_number hq]
    show fa.numberedAccepting (fa.number q) = true ↔ _
    rw [numberedAccepting, numberedState?_number hq, Option.any_some, isFinal_iff]
  · obtain ⟨q, hq, rfl⟩ := hnumber u hu
    rw [numberedState?_getD_number hq]
    exact h.step_quotient_iff hq

end Reduced

/-- **Minimizing twice is minimizing once.** -/
theorem WellFormed.minimize_minimize (h : fa.WellFormed) (hm : fa.minimize = .ok m) :
    m.minimize = .ok m := by
  have hflag := determinized_of_minimize_eq_ok hm
  have htrimmed := h.trimmed_live (h.deterministic hflag)
  cases hp : fa.live.initial with
  | none =>
    rw [minimize_of_initial_none hflag hp] at hm
    obtain rfl := Except.ok.inj hm
    exact minimize_of_initial_none rfl rfl
  | some p =>
    rw [minimize_of_initial_some hflag hp] at hm
    obtain rfl := Except.ok.inj hm
    have hlawful := htrimmed.lawful_quotient
    have hconstructed := hlawful.constructed fun u => (fa.live.numberedState? u).getD ""
    have hreduced := (htrimmed.reduced_quotient fun u => (fa.live.numberedState? u).getD "").rename
    have hlive := hconstructed.rename.live_eq hreduced.toTrimmed
    -- the initial state is there still
    have hinitial : (fa.live.quotient.toAutomaton
        fun u => (fa.live.numberedState? u).getD "").rename.initial ≠ none := by
      rw [initial_rename, hlawful.initial_toAutomaton, initial_quotient, hp]
      exact Option.some_ne_none _
    obtain ⟨p', hp'⟩ := Option.ne_none_iff_exists'.1 hinitial
    rw [minimize_of_initial_some hconstructed.rename.determinized (hlive.symm ▸ hp'), hlive,
      hreduced.toAutomaton_quotient hconstructed.rename,
      hconstructed.wellFormed.rename_rename]

/-! ### Commands -/

/-- A construction that yields the table itself reports no change. -/
theorem WellFormed.report_replaced_self (h : fa.WellFormed) :
    (fa.replaced (.ok fa)).report = .ok false := by
  show Except.ok (!fa.same fa) = _
  rw [h.same_self]
  rfl

/-- **Determinization and minimization are idempotent**, and the second command reports that
nothing has changed. -/
theorem Obtainable.idempotent (h : fa.Obtainable) :
    fa.determinize.determinize = fa.determinize ∧
      ((fa.apply .determinize).automaton.apply .determinize).report = .ok false ∧
      (fa.determinized = true → ∃ m, fa.minimize = .ok m ∧ m.minimize = .ok m ∧
        ((fa.apply .minimize).automaton.apply .minimize).report = .ok false) := by
  have hfa := h.wellFormed
  refine ⟨hfa.determinize_determinize, ?_, fun hflag => ?_⟩
  · show (fa.determinize.replaced (.ok fa.determinize.determinize)).report = .ok false
    rw [hfa.determinize_determinize]
    exact hfa.determinize.report_replaced_self
  · obtain ⟨m, hm, hreduced, -⟩ := hfa.exists_minimize hflag
    have hagain := hfa.minimize_minimize hm
    have hafter : (fa.apply .minimize).automaton = m := by
      show (fa.replaced fa.minimize).automaton = m
      rw [hm]
      rfl
    refine ⟨m, hm, hagain, ?_⟩
    rw [hafter]
    show (m.replaced m.minimize).report = .ok false
    rw [hagain]
    exact hreduced.wellFormed.report_replaced_self

/-- The automaton of `a*` is flagged as determinized. -/
theorem idempotent_star :
    (Regex.PositionTable.ofExpr (.star (.letter 'a'))).automaton.determinized = true ∧
      (Regex.PositionTable.ofExpr (.star (.letter 'a'))).automaton.determinize.determinize =
        (Regex.PositionTable.ofExpr (.star (.letter 'a'))).automaton.determinize ∧
      ∃ m, (Regex.PositionTable.ofExpr (.star (.letter 'a'))).automaton.minimize = .ok m ∧
        m.minimize = .ok m := by
  have hparse : Regex.parse ['a', '*'] = .ok (.star (.letter 'a')) := rfl
  obtain ⟨hdeterminize, -, hminimize⟩ := (obtainable_automaton hparse).idempotent
  obtain ⟨m, hm, hagain, -⟩ := hminimize rfl
  exact ⟨rfl, hdeterminize, m, hm, hagain⟩

end FiniteState.Automaton
