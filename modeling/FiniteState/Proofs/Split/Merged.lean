import FiniteState.Proofs.Split.Discovered

/-!
# Classes of states, written and deleted

Minimization writes a state for each class of states that no word tells apart, that of the sink
included, and deletes the sink afterwards.  No state is merged with the sink.  So what is left when
it is deleted is the automaton of the quotient, which the running definition fills without a sink.

## Main results

* `Trimmed.lawful_classes` — the classes are the states of a lawful machine, also with the sink.
* `Trimmed.toAutomaton_quotient_eq` — **without the sink this is the quotient**.
* `WellFormed.split_minimize` — **minimization in two collections is the running one**.
-/

namespace FiniteState

namespace SplitAutomaton

theorem deleteState_withDeterminized (a : SplitAutomaton) (flag : Bool) (q : Label) :
    (a.withDeterminized flag).deleteState q = (a.deleteState q).withDeterminized flag := by
  by_cases hq : q ∈ a.states
  · rw [deleteState_of_mem hq, deleteState_of_mem (a := a.withDeterminized flag) hq]
    rfl
  · rw [deleteState_of_notMem hq, deleteState_of_notMem (a := a.withDeterminized flag) hq]

variable {fa : Automaton} {sunk : Bool} {u v : Fin (fa.states.length + 1)}

theorem mem_states_classes : u ∈ (classes fa sunk).states ↔
    (u ≠ fa.sink ∨ sunk = true) ∧ fa.least u = u := by
  show u ∈ (List.finRange _).filter (fun u => (u != fa.sink || sunk) && fa.least u == u) ↔ _
  simp

/-- The states of the quotient are the classes without that of the sink. -/
theorem states_quotient_eq (fa : Automaton) (sunk : Bool) : fa.quotient.states =
    (classes fa sunk).states.filter (· != fa.sink) := by
  show (List.finRange _).filter
      (fun u => u != fa.sink && fa.numbered.distinguish.representatives.get u == u) =
    ((List.finRange _).filter fun u => (u != fa.sink || sunk) && fa.least u == u).filter _
  rw [List.filter_filter]
  refine List.filter_congr fun u _ => ?_
  rw [NumberedMachine.get_representatives, ← Automaton.least]
  cases u != fa.sink <;> simp

end SplitAutomaton

open SplitAutomaton

namespace Automaton

variable {fa : Automaton} {q : Label} {s : Symbol}

/-- Where no cell is empty, every symbol leads from every state to a state. -/
theorem WellFormed.exists_target (h : fa.WellFormed) (hdefined : fa.hasUndefined = false)
    (hq : q ∈ fa.states) (hs : s ∈ fa.alphabet) : ∃ r, r ∈ fa.targets q s := by
  obtain ⟨c, hc⟩ := h.exists_cell_iff.2 ⟨hq, hs⟩
  obtain ⟨row, hrow, hcell⟩ := cell?_eq_some_iff.1 hc
  have hmem : (q, s, c) ∈ fa.cells := mem_cells.2
    ⟨row, List.mem_of_lookup_eq_some hrow, List.mem_of_lookup_eq_some hcell⟩
  have hne : ¬ c.isEmpty = true := by
    intro hempty
    have hundefined : fa.hasUndefined = true := List.any_eq_true.2 ⟨_, hmem, hempty⟩
    rw [hdefined] at hundefined
    cases hundefined
  rw [fa.targets_of_cell hc]
  exact LabelSet.exists_mem_of_ne_empty (mt Cell.isEmpty_iff.2 hne)

/-! ### Labels of classes -/

section Labels

variable {sink? : Option Label} {u v : Fin (fa.states.length + 1)}

theorem classLabel_number (hq : q ∈ fa.states) : classLabel fa sink? (fa.number q) = q := by
  rw [classLabel, numberedState?_number hq, Option.getD_some]

variable (hnd : fa.states.Nodup)

include hnd

theorem classLabel_mem (hu : u ≠ fa.sink) : classLabel fa sink? u ∈ fa.states := by
  obtain ⟨q, hq, rfl⟩ := exists_number_eq hnd hu
  rwa [classLabel_number hq]

theorem classLabel_eq (hu : u ≠ fa.sink) :
    classLabel fa sink? u = (fa.numberedState? u).getD "" := by
  obtain ⟨q, hq, rfl⟩ := exists_number_eq hnd hu
  rw [classLabel_number hq, numberedState?_number hq, Option.getD_some]

variable (hfresh : ∀ l, sink? = some l → l ∉ fa.states)

omit hnd in
include hfresh in
theorem classLabel_sink_notMem (hu : u ∈ (classes fa sink?.isSome).states) (hsink : u = fa.sink) :
    classLabel fa sink? u ∉ fa.states := by
  have hsome := (mem_states_classes.1 hu).1.resolve_left (not_not.2 hsink)
  obtain ⟨l, rfl⟩ := Option.isSome_iff_exists.1 hsome
  rw [hsink, classLabel, numberedState?_sink, Option.getD_none, Option.getD_some]
  exact hfresh l rfl

include hfresh

/-- **Two classes have two labels.** -/
theorem classLabel_inj (hu : u ∈ (classes fa sink?.isSome).states)
    (hv : v ∈ (classes fa sink?.isSome).states)
    (heq : classLabel fa sink? u = classLabel fa sink? v) : u = v := by
  by_cases husink : u = fa.sink <;> by_cases hvsink : v = fa.sink
  · rw [husink, hvsink]
  · exact absurd (heq ▸ classLabel_mem hnd hvsink) (classLabel_sink_notMem hfresh hu husink)
  · exact absurd (heq ▸ classLabel_mem hnd husink) (classLabel_sink_notMem hfresh hv hvsink)
  · obtain ⟨q, hq, rfl⟩ := exists_number_eq hnd husink
    obtain ⟨r, hr, rfl⟩ := exists_number_eq hnd hvsink
    rw [classLabel_number hq, classLabel_number hr] at heq
    rw [heq]

theorem nodup_classLabel :
    ((classes fa sink?.isSome).states.map (classLabel fa sink?)).Nodup := by
  have hstates : (classes fa sink?.isSome).states.Nodup := (List.nodup_finRange _).filter _
  exact hstates.map_on fun u hu v hv heq => classLabel_inj hnd hfresh hu hv heq

end Labels

/-! ### With and without the sink -/

namespace Trimmed

variable (h : fa.Trimmed) {u : Fin (fa.states.length + 1)}

include h

theorem epsilon_notMem : Symbol.epsilon ∉ fa.alphabet := by
  intro hs
  obtain ⟨q, r, hr⟩ := h.used hs
  exact h.deterministic.not_silent hr

/-- Where all transitions are defined, none leads to the sink. -/
theorem numberedStep_ne_sink (hdefined : fa.hasUndefined = false) (hu : u ≠ fa.sink)
    (hs : s ∈ fa.alphabet) : fa.numberedStep u s ≠ fa.sink := by
  obtain ⟨q, hq, rfl⟩ := exists_number_eq h.wellFormed.states_nodup hu
  obtain ⟨r, hr⟩ := h.wellFormed.exists_target hdefined hq hs
  rw [numberedStep_of_mem h.deterministic hr]
  exact number_ne_sink (h.wellFormed.target_mem hr)

/-- **The classes are the states of a lawful machine.** -/
theorem lawful_classes {sunk : Bool} (hsunk : sunk = false → fa.hasUndefined = false) :
    (classes fa sunk).Lawful where
  states_nodup := (List.nodup_finRange _).filter _
  alphabet_nodup := h.wellFormed.alphabet_nodup
  initial_mem hi := by
    obtain ⟨p, hp, rfl⟩ := Option.map_eq_some_iff.1 hi
    have hstate := number_ne_sink (h.wellFormed.initial_mem hp)
    exact mem_states_classes.2 ⟨.inl (mt h.least_eq_sink_iff.1 hstate), h.least_least⟩
  step_mem {u s v} hu hs hv := by
    obtain rfl := Option.some.inj hv
    refine mem_states_classes.2 ⟨?_, h.least_least⟩
    cases hflag : sunk with
    | true => exact .inr rfl
    | false =>
      have hne := (mem_states_classes.1 hu).1.resolve_right (by simp [hflag])
      exact .inl (mt h.least_eq_sink_iff.1 (h.numberedStep_ne_sink (hsunk hflag) hne hs))
  not_silent _ hs := absurd hs h.epsilon_notMem

variable {sink? : Option Label} (hsunk : sink?.isSome = false → fa.hasUndefined = false)
  (hfresh : ∀ l, sink? = some l → l ∉ fa.states)

include hsunk hfresh

/-- **Without the sink the automaton of the classes is that of the quotient.** -/
theorem toAutomaton_quotient_eq {p : Label → Bool}
    (hp : ∀ u ∈ (classes fa sink?.isSome).states,
      p (classLabel fa sink? u) = true ↔ u ≠ fa.sink) :
    (fa.quotient.toAutomaton fun u => (fa.numberedState? u).getD "") =
      ((classes fa sink?.isSome).toAutomaton (classLabel fa sink?)).keepStates p := by
  have hnd := h.wellFormed.states_nodup
  have hlawful := h.lawful_classes hsunk
  have hlabel : ∀ u ∈ (classes fa sink?.isSome).states,
      (classes fa sink?.isSome).label (classLabel fa sink?) u = classLabel fa sink? u :=
    fun u => Machine.label_of_nodup (nodup_classLabel hnd hfresh)
  have hkept : ∀ u ∈ (classes fa sink?.isSome).states,
      p ((classes fa sink?.isSome).label (classLabel fa sink?) u) = true ↔ u ≠ fa.sink := by
    intro u hu
    rw [hlabel u hu, hp u hu]
  have hmem {u} : u ∈ fa.quotient.states ↔
      u ∈ (classes fa sink?.isSome).states ∧ u ≠ fa.sink := by
    rw [states_quotient_eq fa sink?.isSome, List.mem_filter, bne_iff_ne]
  have hself : ∀ u ∈ fa.quotient.states, (fa.numberedState? u).getD "" =
      (classes fa sink?.isSome).label (classLabel fa sink?) u := by
    intro u hu
    rw [hlabel u (hmem.1 hu).1, classLabel_eq hnd (hmem.1 hu).2]
  rw [Machine.toAutomaton_congr hself]
  refine hlawful.toAutomaton_eq_keepStates h.lawful_quotient ?_ rfl ?_ rfl fun u hu s hs v => ?_
  · rw [states_quotient_eq fa sink?.isSome]
    refine List.filter_congr fun u hu => ?_
    rw [Bool.eq_iff_iff, hkept u hu, bne_iff_ne]
  · rw [initial_quotient]
    show _ = (fa.initial.map fun q => fa.least (fa.number q)).filter _
    cases hi : fa.initial with
    | none => rfl
    | some q =>
      have hq := hmem.1 (h.least_number_mem (h.wellFormed.initial_mem hi))
      rw [Option.map_some, Option.filter_some, if_pos ((hkept _ hq.1).2 hq.2)]
  · rw [step_quotient_eq_some]
    show _ ↔ some (fa.least (fa.numberedStep u s)) = some v ∧ _
    rw [Option.some.injEq]
    refine and_congr_right fun hv => ?_
    have hv : v ∈ (classes fa sink?.isSome).states :=
      hlawful.step_mem (hmem.1 hu).1 hs (congrArg some hv)
    exact (hkept v hv).symm

/-- Deleting the class of the sink leaves the quotient. -/
theorem deleteState_classes (hsome : sink?.isSome = true) :
    ((classes fa sink?.isSome).toAutomaton (classLabel fa sink?)).deleteState
        ((classes fa sink?.isSome).label (classLabel fa sink?) (fa.least fa.sink)) =
      fa.quotient.toAutomaton fun u => (fa.numberedState? u).getD "" := by
  have hnd := h.wellFormed.states_nodup
  have hleast : fa.least fa.sink = fa.sink := h.least_eq_sink_iff.2 rfl
  have hsink : fa.sink ∈ (classes fa sink?.isSome).states :=
    mem_states_classes.2 ⟨.inr hsome, hleast⟩
  rw [hleast, Machine.label_of_nodup (nodup_classLabel hnd hfresh) hsink, deleteState,
    h.toAutomaton_quotient_eq hsunk hfresh]
  intro u hu
  rw [bne_iff_ne]
  exact not_congr ⟨fun heq => classLabel_inj hnd hfresh hu hsink heq, fun heq => heq ▸ rfl⟩

/-- Where there is no class of the sink, there is nothing to delete. -/
theorem toAutomaton_classes (hnone : ¬ sink?.isSome = true) :
    (classes fa sink?.isSome).toAutomaton (classLabel fa sink?) =
      fa.quotient.toAutomaton fun u => (fa.numberedState? u).getD "" := by
  rw [h.toAutomaton_quotient_eq hsunk hfresh (p := fun _ => true), keepStates_true]
  intro u hu
  exact iff_of_true rfl ((mem_states_classes.1 hu).1.resolve_right hnone)

end Trimmed

/-- **All classes are written, and that of the sink is deleted.** -/
theorem Trimmed.split_merged (h : fa.Trimmed) : fa.split.merged =
    (fa.quotient.toAutomaton fun u => (fa.numberedState? u).getD "").split.withDeterminized
      false := by
  let m := classes fa fa.split.sinkLabel?.isSome
  have htable := h.wellFormed.table_split
  have hsink? : fa.split.sinkLabel? =
      if fa.hasUndefined then some (LabelPool.excluding fa.states).take.1 else none := by
    rw [sinkLabel?, htable]
    rfl
  have hsunk : fa.split.sinkLabel?.isSome = false → fa.hasUndefined = false := by
    rw [hsink?]
    cases fa.hasUndefined <;> simp
  -- the label of the sink is none of those of the states
  have hfresh : ∀ l, fa.split.sinkLabel? = some l → l ∉ fa.states := by
    intro l hl hmem
    rw [hsink?, Option.ite_none_right_eq_some] at hl
    obtain rfl := Option.some.inj hl.2
    exact (LabelPool.excluding fa.states).take_notMem_used (LabelPool.mem_used_excluding.2 hmem)
  have hlawful := h.lawful_classes hsunk
  have hlabel : (fun u => ((m.states.map fun u =>
      (u, classLabel fa fa.split.sinkLabel? u)).lookup u).getD "") =
      m.label (classLabel fa fa.split.sinkLabel?) := by
    funext u
    rw [Machine.label,
      Label.distinct_of_nodup (nodup_classLabel h.wellFormed.states_nodup hfresh)]
  have hmerged : fa.split.merged =
      if fa.split.sinkLabel?.isSome then
        (SplitAutomaton.empty.performAll (m.script
          (m.label (classLabel fa fa.split.sinkLabel?)))).deleteState
            (m.label (classLabel fa fa.split.sinkLabel?) (fa.least fa.sink))
      else SplitAutomaton.empty.performAll
        (m.script (m.label (classLabel fa fa.split.sinkLabel?))) := by
    rw [← hlabel, merged, htable]
  rw [hmerged, hlawful.split_script, deleteState_withDeterminized,
    ← (hlawful.wellFormed _).split_deleteState]
  split
  · rename_i hsome
    rw [h.deleteState_classes hsunk hfresh hsome]
  · rename_i hnone
    rw [h.toAutomaton_classes hsunk hfresh hnone]

/-- **Minimization in two collections is the running one.** -/
theorem WellFormed.split_minimize (h : fa.WellFormed) :
    fa.split.minimize = fa.minimize.map Automaton.split := by
  have hcore : fa.split.removeUnreachable.removeUseless = fa.live.split := by
    rw [Automaton.live, ← h.split_removeUnreachable, ← h.removeUnreachable.split_removeUseless]
  unfold SplitAutomaton.minimize Automaton.minimize
  show (if fa.determinized then _ else _) = _
  split
  · rename_i hflag
    have htrimmed := h.trimmed_live (h.deterministic hflag)
    have hwf := htrimmed.lawful_quotient.wellFormed
      fun u => (fa.live.numberedState? u).getD ""
    dsimp only
    rw [hcore]
    show (if fa.live.initial.isNone then _ else _) = _
    split
    · rfl
    · rw [htrimmed.split_merged, rename_withDeterminized, withDeterminized_withDeterminized,
        ← hwf.split_rename]
      exact congrArg Except.ok (withDeterminized_eq_self rfl)
  · rfl

end Automaton

end FiniteState
