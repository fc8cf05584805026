import FiniteState.Proofs.Automaton.Constructed
import FiniteState.Proofs.Automaton.Powerset
import FiniteState.Proofs.Discovery

/-!
# States in the order of their discovery

The powerset machine lists its states in the order in which an exploration discovers them
from the initial one.  Its automaton has that order, and trimming and renaming keep it: the
states that are removed lead only to such states, and names do not change who leads where.
So when the result is determinized again, the singletons of its states are discovered in the
order of the states, each is described by the label of its member, and the powerset machine
has the automaton that it was built from as its automaton.

## Main definitions

* `Automaton.Discovered` — the states stand in the order of their discovery.

## Main results

* `Discovered.removeUseless`, `Discovered.rename` — trimming and renaming keep the order.
* `WellFormed.discovered_powerset` — the automaton of the powerset machine has the order.
* `Constructed.toAutomaton_powerset` — **the powerset machine of a constructed table in this
  order has that table as its automaton**.
-/

namespace FiniteState.Automaton

variable {fa : Automaton} {q : Label} {s : Symbol}

/-- **The states stand in the order of their discovery** from the initial state. -/
def Discovered (fa : Automaton) : Prop :=
  ∃ rounds, fa.states.length ≤ rounds ∧
    fa.states = explore fa.successors rounds fa.initial.toList

theorem WellFormed.successors_subset (h : fa.WellFormed) : fa.successors q ⊆ fa.states := by
  intro r hr
  obtain ⟨s, hr⟩ := h.mem_successors.1 hr
  exact h.target_mem hr

theorem WellFormed.initial_subset (h : fa.WellFormed) : fa.initial.toList ⊆ fa.states :=
  fun _ hp => h.initial_mem (Option.mem_toList.1 hp)

/-- The number of rounds does not matter, if these suffice. -/
theorem Discovered.states_eq (hdisc : fa.Discovered) (h : fa.WellFormed) {rounds : ℕ}
    (hrounds : fa.states.length ≤ rounds) :
    fa.states = explore fa.successors rounds fa.initial.toList := by
  obtain ⟨enough, henough, hstates⟩ := hdisc
  exact hstates.trans
    (explore_rounds h.initial_subset (fun _ _ => h.successors_subset) henough hrounds)

/-! ### Machines -/

/-- The automaton of a discovered machine has its states in the order of their discovery. -/
theorem discovered_toAutomaton {κ : Type} [DecidableEq κ] {m : Machine κ} (h : m.Lawful)
    {rounds : ℕ} (hstates : m.states = explore m.successors rounds m.initial.toList)
    (hrounds : m.states.length ≤ rounds) (describe : κ → Label) :
    (m.toAutomaton describe).Discovered := by
  have hinitial : (m.toAutomaton describe).initial.toList =
      m.initial.toList.map (m.label describe) := by
    rw [h.initial_toAutomaton]
    cases m.initial <;> rfl
  have hsuccessors : ∀ k ∈ m.states, (m.toAutomaton describe).successors (m.label describe k) =
      (m.successors k).map (m.label describe) := by
    intro k hk
    have hdet := h.deterministic_toAutomaton describe
    rw [hdet.successors_eq, Machine.successors, List.map_filterMap]
    refine List.filterMap_congr fun s hs => Option.ext fun r => ?_
    have hs : s ∈ m.alphabet := hs
    rw [hdet.first?_eq_some, h.mem_targets_toAutomaton hk, and_iff_right hs, Option.map_eq_some_iff]
  have hclosed : ∀ k ∈ m.states, m.successors k ⊆ m.states := by
    intro k hk l hl
    obtain ⟨s, hs, hl⟩ := Machine.mem_successors.1 hl
    exact h.step_mem hk hs hl
  refine ⟨rounds, ?_, ?_⟩
  · rw [h.states_toAutomaton, List.length_map]
    exact hrounds
  · rw [hinitial, explore_map (fun k hk l hl => Machine.label_inj hk hl) hclosed hsuccessors rounds
      fun k hk => h.initial_mem (Option.mem_toList.1 hk), ← hstates, h.states_toAutomaton]

/-! ### Trimming and renaming -/

/-- Removing the useless states restricts the successors of the others. -/
theorem WellFormed.successors_removeUseless (h : fa.WellFormed) (q : Label) :
    fa.removeUseless.successors q = (fa.successors q).filter fa.coreachable.contains := by
  have htargets : ∀ s, (fa.removeUseless.targets q s).toList =
      (fa.targets q s).toList.filter fa.coreachable.contains := by
    intro s
    have hset : fa.removeUseless.targets q s =
        (fa.targets q s).filter fa.coreachable.contains := by
      refine LabelSet.ext fun r => ?_
      rw [h.mem_targets_removeUseless, LabelSet.mem_filter, h.contains_coreachable, and_comm]
    rw [hset]
    rfl
  rw [successors, successors, List.filter_flatMap]
  simp only [← htargets]
  -- a symbol that is removed led nowhere
  refine List.flatMap_filter_of_eq_nil fun s hs hunused => ?_
  rw [List.eq_nil_iff_forall_not_mem]
  exact fun r hr => hunused (List.mem_filter.1 (h.removeUseless.symbol_mem hr)).2

theorem Discovered.removeUseless (hdisc : fa.Discovered) (h : fa.WellFormed) :
    fa.removeUseless.Discovered := by
  obtain ⟨rounds, hrounds, hstates⟩ := hdisc
  have hkept : fa.removeUseless.states = fa.states.filter fa.coreachable.contains := by
    rw [Automaton.removeUseless, pruneUnusedSymbols, states_keepSymbols, states_keepStates]
  have hinitial : fa.removeUseless.initial.toList =
      fa.initial.toList.filter fa.coreachable.contains := by
    show (fa.initial.filter fa.coreachable.contains).toList = _
    cases fa.initial with
    | none => rfl
    | some p =>
      rw [Option.filter_some, Option.toList_some, List.filter_cons]
      split <;> rfl
  -- the states on the way to a useful state are useful
  have hback : ∀ p, ∀ r ∈ fa.successors p, fa.coreachable.contains r = true →
      fa.coreachable.contains p = true := by
    intro p r hr hkeep
    obtain ⟨s, hr⟩ := h.mem_successors.1 hr
    rw [h.contains_coreachable] at hkeep ⊢
    exact hkeep.step hr
  refine ⟨rounds, ?_, ?_⟩
  · rw [hkept]
    exact (List.length_filter_le _ _).trans hrounds
  · rw [hkept, hinitial, explore_filter hback (fun p _ => h.successors_removeUseless p) rounds,
      ← hstates]

theorem Discovered.rename (hdisc : fa.Discovered) (h : fa.WellFormed) (hdet : fa.Deterministic) :
    fa.rename.Discovered := by
  obtain ⟨rounds, hrounds, hstates⟩ := hdisc
  have hinj := h.injOn_newName .full
  have hinitial : fa.rename.initial.toList = fa.initial.toList.map (fa.newName .full) := by
    rw [initial_rename]
    cases fa.initial <;> rfl
  have hsuccessors : ∀ q ∈ fa.states, fa.rename.successors (fa.newName .full q) =
      (fa.successors q).map (fa.newName .full) := by
    intro q hq
    have hdet' : fa.rename.Deterministic := hdet.relabel hinj
    rw [hdet'.successors_eq, hdet.successors_eq, List.map_filterMap]
    refine List.filterMap_congr fun s _ => Option.ext fun r => ?_
    rw [hdet'.first?_eq_some, Option.map_eq_some_iff, rename_eq, fa.mem_targets_relabel hinj hq]
    simp only [hdet.first?_eq_some]
  refine ⟨rounds, ?_, ?_⟩
  · rw [rename_eq, states_relabel, List.length_map]
    exact hrounds
  · rw [hinitial, explore_map (fun p hp r hr => hinj hp hr) (fun _ _ => h.successors_subset)
      hsuccessors rounds h.initial_subset, ← hstates, rename_eq, states_relabel]

/-! ### The powerset machine -/

/-- The automaton of the powerset machine has its states in the order of their discovery. -/
theorem WellFormed.discovered_powerset (h : fa.WellFormed) :
    (fa.powerset.toAutomaton LabelSet.describe).Discovered := by
  have hlawful := h.lawful_powerset
  have hsub : fa.powerset.states ⊆ LabelSet.subsets fa.states := by
    intro S hS
    obtain ⟨-, w, rfl⟩ := h.mem_states_powerset.1 hS
    refine LabelSet.mem_subsets fun q hq => ?_
    obtain ⟨p, hp, hpath⟩ := h.mem_run.1 hq
    exact hpath.mem_states h (h.initial_mem hp)
  have hlen := (List.subperm_of_subset hlawful.states_nodup hsub).length_le
  rw [LabelSet.length_subsets, states, List.length_map] at hlen
  exact discovered_toAutomaton hlawful rfl hlen _

theorem describe_singleton (q : Label) : LabelSet.describe (.singleton q) = q := by
  show String.join [q] = q
  simp [String.join]

/-- A set with one member at most that is not empty is a singleton. -/
theorem eq_and_ne_empty_iff {S T : LabelSet} (h : ∀ r ∈ S, ∀ r' ∈ S, r = r') :
    S = T ∧ T ≠ ∅ ↔ ∃ r ∈ S, LabelSet.singleton r = T := by
  constructor
  · rintro ⟨rfl, hne⟩
    obtain ⟨r, hr⟩ := LabelSet.exists_mem_of_ne_empty hne
    refine ⟨r, hr, LabelSet.ext fun r' => ?_⟩
    rw [LabelSet.mem_singleton]
    exact ⟨fun heq => heq ▸ hr, fun hr' => h r' hr' r hr⟩
  · rintro ⟨r, hr, rfl⟩
    refine ⟨LabelSet.ext fun r' => ?_, LabelSet.ne_empty_of_mem (LabelSet.mem_singleton.2 rfl)⟩
    rw [LabelSet.mem_singleton]
    exact ⟨fun hr' => h r' hr' r hr, fun heq => heq ▸ hr⟩

/-- Where no symbol is the silent one, the powerset machine reads them all. -/
theorem alphabet_powerset (hsilent : Symbol.epsilon ∉ fa.alphabet) :
    fa.powerset.alphabet = fa.alphabet := by
  refine List.filter_eq_self.2 fun s hs => ?_
  rw [Bool.not_eq_true', ← Bool.not_eq_true, Symbol.isEpsilon_iff]
  exact fun heq => hsilent (heq ▸ hs)

namespace Deterministic

variable (hdet : fa.Deterministic) (h : fa.WellFormed)

include hdet h

/-- A deterministic automaton is in one state at a time. -/
theorem step_singleton_eq_some {T : LabelSet} : fa.powerset.step (.singleton q) s = some T ↔
    ∃ r ∈ fa.targets q s, LabelSet.singleton r = T := by
  have hmem : ∀ r, r ∈ fa.step (.singleton q) s ↔ r ∈ fa.targets q s := by
    intro r
    rw [h.mem_step]
    constructor
    · rintro ⟨p, hp, p', hp', hpath⟩
      obtain rfl := LabelSet.mem_singleton.1 hp
      rwa [← hpath.eq_of_nil hdet.not_silent]
    · exact fun hr => ⟨q, LabelSet.mem_singleton.2 rfl, r, hr, .nil r⟩
  have hunique : ∀ r ∈ fa.step (.singleton q) s, ∀ r' ∈ fa.step (.singleton q) s, r = r' :=
    fun r hr r' hr' => hdet.target_unique ((hmem r).1 hr) ((hmem r').1 hr')
  simp only [← hmem]
  exact setStep_eq_some.trans (eq_and_ne_empty_iff hunique)

theorem initial_powerset : fa.powerset.initial = fa.initial.map .singleton := by
  have hmem : ∀ r, r ∈ fa.start ↔ fa.initial = some r := by
    intro r
    rw [h.mem_start]
    constructor
    · rintro ⟨p, hp, hpath⟩
      rwa [← hpath.eq_of_nil hdet.not_silent]
    · exact fun hr => ⟨r, hr, .nil r⟩
  have hunique : ∀ r ∈ fa.start, ∀ r' ∈ fa.start, r = r' := fun r hr r' hr' =>
    Option.some.inj (((hmem r).1 hr).symm.trans ((hmem r').1 hr'))
  refine Option.ext fun S => ?_
  rw [initial_powerset_eq_some, eq_and_ne_empty_iff hunique, Option.map_eq_some_iff]
  simp only [hmem]

theorem successors_powerset (hsilent : Symbol.epsilon ∉ fa.alphabet) (q : Label) :
    fa.powerset.successors (.singleton q) = (fa.successors q).map .singleton := by
  rw [hdet.successors_eq, Machine.successors, List.map_filterMap, alphabet_powerset hsilent]
  refine List.filterMap_congr fun s _ => Option.ext fun T => ?_
  rw [hdet.step_singleton_eq_some h, Option.map_eq_some_iff]
  simp only [hdet.first?_eq_some]

/-- The singletons are discovered in the order of the states. -/
theorem states_powerset (hdisc : fa.Discovered) (hsilent : Symbol.epsilon ∉ fa.alphabet) :
    fa.powerset.states = fa.states.map .singleton := by
  have hlen : fa.states.length ≤ 1 <<< fa.rows.length := by
    rw [states, List.length_map, Nat.one_shiftLeft]
    exact Nat.lt_two_pow_self.le
  have hinj : ∀ p ∈ fa.states, ∀ r ∈ fa.states,
      LabelSet.singleton p = LabelSet.singleton r → p = r := by
    intro p _ r _ heq
    exact LabelSet.mem_singleton.1 (heq ▸ LabelSet.mem_singleton.2 rfl)
  have hplaces : fa.powerset.initial.toList = fa.initial.toList.map .singleton := by
    rw [hdet.initial_powerset h]
    cases fa.initial <;> rfl
  show explore fa.powerset.successors _ fa.powerset.initial.toList = _
  rw [hplaces, explore_map hinj (fun _ _ => h.successors_subset)
    (fun q _ => hdet.successors_powerset h hsilent q) _ h.initial_subset, ← hdisc.states_eq h hlen]

end Deterministic

/-- **The powerset machine of a constructed table in the order of discovery** has that table
as its automaton. -/
theorem Constructed.toAutomaton_powerset (h : fa.Constructed) (hdisc : fa.Discovered)
    (hsilent : Symbol.epsilon ∉ fa.alphabet) :
    fa.powerset.toAutomaton LabelSet.describe = fa := by
  have hwf := h.wellFormed
  have hdet := h.deterministic
  have halphabet := alphabet_powerset hsilent
  have hstates := hdet.states_powerset hwf hdisc hsilent
  have hmem : ∀ S ∈ fa.powerset.states, ∃ q, LabelSet.singleton q = S := by
    intro S hS
    rw [hstates] at hS
    obtain ⟨q, -, heq⟩ := List.mem_map.1 hS
    exact ⟨q, heq⟩
  refine hwf.lawful_powerset.toAutomaton_eq h ?_ halphabet ?_ (fun S hS => ?_) fun S hS s r => ?_
  · rw [hstates, List.map_map]
    exact (List.map_congr_left fun q _ => describe_singleton q).trans (List.map_id _)
  · rw [hdet.initial_powerset hwf, Option.map_map]
    cases fa.initial with
    | none => rfl
    | some p => exact congrArg some (describe_singleton p)
  · obtain ⟨q, rfl⟩ := hmem S hS
    rw [describe_singleton]
    show fa.meetsFinal (.singleton q) = true ↔ _
    simp [meetsFinal_iff]
  · obtain ⟨q, rfl⟩ := hmem S hS
    rw [describe_singleton, halphabet]
    constructor
    · exact fun hr => ⟨hwf.symbol_mem hr, .singleton r,
        (hdet.step_singleton_eq_some hwf).2 ⟨r, hr, rfl⟩, describe_singleton r⟩
    · rintro ⟨-, T, hT, hdescribe⟩
      obtain ⟨r', hr', rfl⟩ := (hdet.step_singleton_eq_some hwf).1 hT
      rwa [← hdescribe, describe_singleton]

end FiniteState.Automaton
