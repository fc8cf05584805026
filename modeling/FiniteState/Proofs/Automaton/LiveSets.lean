import FiniteState.Proofs.Automaton.Obtainable
import FiniteState.Proofs.Automaton.Constructed

/-!
# The states of a determinized automaton

A word leads a nondeterministic automaton to a set of states.  Such a set is *live* when an
accepting state is reached from one of its members; it has a member then, and it is closed
under transitions without reading.  The determinized automaton has one state for each live
set.  Sets may be described alike, but primes tell the labels of different sets apart, the
sets that are not live are trimmed away, and the short names keep the others apart again.

## Main definitions

* `Automaton.LiveSet` — the sets of states that words lead to and that are not dead ends.
* `Automaton.LiveSets` — the states of an automaton stand for the live sets of another.
* `Automaton.setName` — the name of a set of states in the determinized automaton.

## Main results

* `WellFormed.runFrom_powerset_iff`, `WellFormed.useful_label_iff` — where words lead the
  powerset machine, and which of its states trimming leaves.
* `WellFormed.liveSets_determinize` — **the states of the determinized automaton stand for
  the live sets**.
* `Obtainable.determinize_liveSets` — this, and nothing superfluous is left.
-/

namespace FiniteState

namespace Automaton

variable {fa : Automaton} {S T : LabelSet} {s : Symbol} {w : List Symbol}

/-- When all states of a deterministic automaton are reached, removing the useless ones
trims it. -/
theorem WellFormed.trimmed_removeUseless (h : fa.WellFormed) (hdet : fa.Deterministic)
    (hreached : ∀ q ∈ fa.states, fa.Reached q) : fa.removeUseless.Trimmed where
  wellFormed := h.removeUseless
  deterministic := hdet.mono fun hr => (h.mem_targets_removeUseless.1 hr).2
  reached hq := by
    obtain ⟨hq, huseful⟩ := h.mem_states_removeUseless.1 hq
    exact (h.reached_removeUseless_iff huseful).2 (hreached _ hq)
  useful := h.useful_removeUseless
  used := h.used_removeUseless

/-! ### Live sets -/

/-- **The set holds exactly the states that some word leads to**, and from one of them an
accepting state is reached. -/
def LiveSet (fa : Automaton) (S : LabelSet) : Prop :=
  (∃ w, ∀ q, q ∈ S ↔ ∃ p, fa.initial = some p ∧ fa.Path p w q) ∧ ∃ q ∈ S, fa.Useful q

/-- **The states of an automaton stand for the live sets of another**, one for each set, and
the marks and transitions are those of the sets. -/
structure LiveSets (fa fd : Automaton) (f : LabelSet → Label) : Prop where
  /-- Every state stands for one of the sets, and every set has one state. -/
  bijOn : Set.BijOn f {S | fa.LiveSet S} {q | q ∈ fd.states}
  /-- No state is listed twice. -/
  states_nodup : fd.states.Nodup
  /-- The initial state stands for the closure of the initial state, if that set is live. -/
  initial : ∀ q, fd.initial = some q ↔
    ∃ S, fa.LiveSet S ∧ (∀ r, r ∈ S ↔ ∃ p, fa.initial = some p ∧ fa.Path p [] r) ∧ f S = q
  /-- A state accepts iff a member of its set does. -/
  finals : ∀ S, fa.LiveSet S → (f S ∈ fd.finals ↔ ∃ q ∈ S, q ∈ fa.finals)
  /-- A symbol leads to a state iff the set of that state holds exactly the states to which
  the symbol leads from the members of the one set. -/
  targets : ∀ S T s, fa.LiveSet S → fa.LiveSet T →
    (f T ∈ fd.targets (f S) s ↔ ∀ q, q ∈ T ↔ ∃ p ∈ S, fa.Path p [s] q)

theorem LiveSet.ne_empty (h : fa.LiveSet S) : S ≠ ∅ := by
  obtain ⟨-, q, hq, -⟩ := h
  exact LabelSet.ne_empty_of_mem hq

/-- The name of a set of states in the determinized automaton. -/
def setName (fa : Automaton) (S : LabelSet) : Label :=
  (fa.powerset.toAutomaton LabelSet.describe).removeUseless.newName .full
    (fa.powerset.label LabelSet.describe S)

namespace WellFormed

variable (h : fa.WellFormed)

include h

/-! ### The powerset machine -/

theorem run_eq_iff :
    fa.run w = S ↔ ∀ q, q ∈ S ↔ ∃ p, fa.initial = some p ∧ fa.Path p w q := by
  constructor
  · intro hS q
    rw [← hS, h.mem_run]
  · intro hS
    exact LabelSet.ext fun q => h.mem_run.trans (hS q).symm

theorem closed_run : ∀ p ∈ fa.run w, ∀ q, fa.Path p [] q → q ∈ fa.run w := by
  intro p hp q hpq
  obtain ⟨i, hi, hpath⟩ := h.mem_run.1 hp
  have hpath' : fa.Path i (w ++ []) q := hpath.append hpq
  rw [List.append_nil] at hpath'
  exact h.mem_run.2 ⟨i, hi, hpath'⟩

/-- A word leads the powerset machine from a state to the set of the ends of its paths. -/
theorem runFrom_powerset_iff (hS : S ∈ fa.powerset.states) :
    fa.powerset.runFrom S w = some T ↔
      T ≠ ∅ ∧ ∀ q, q ∈ T ↔ ∃ p ∈ S, fa.Path p w q := by
  obtain ⟨hne, v, rfl⟩ := h.mem_states_powerset.1 hS
  have hmem : ∀ q, q ∈ fa.runFrom (fa.run v) w ↔ ∃ p ∈ fa.run v, fa.Path p w q :=
    fun q => h.mem_runFrom h.closed_run
  rw [h.runFrom_powerset hne]
  constructor
  · intro hrun
    obtain ⟨rfl, hT⟩ := hrun
    exact ⟨hT, hmem⟩
  · intro hends
    obtain ⟨hT, hends⟩ := hends
    exact ⟨LabelSet.ext fun q => (hmem q).trans (hends q).symm, hT⟩

/-- A symbol leads the powerset machine as far as the paths go that read it. -/
theorem step_powerset_iff (hS : S ∈ fa.powerset.states) (hT : T ≠ ∅) :
    s ∈ fa.powerset.alphabet ∧ fa.powerset.step S s = some T ↔
      ∀ q, q ∈ T ↔ ∃ p ∈ S, fa.Path p [s] q := by
  have hrun : fa.powerset.runFrom S [s] = some T ↔
      s ∈ fa.powerset.alphabet ∧ fa.powerset.step S s = some T := by
    simp [Machine.runFrom_cons_eq_some]
  rw [← hrun, h.runFrom_powerset_iff hS, and_iff_right hT]

/-- **Trimming leaves the sets from which an accepting state is reached.** -/
theorem useful_label_iff (hS : S ∈ fa.powerset.states) :
    (fa.powerset.toAutomaton LabelSet.describe).Useful
        (fa.powerset.label LabelSet.describe S) ↔ ∃ q ∈ S, fa.Useful q := by
  constructor
  · intro huseful
    obtain ⟨w, haccepts⟩ := huseful
    obtain ⟨T, hT, haccepting⟩ := (h.lawful_powerset.acceptsFrom_toAutomaton hS).1 haccepts
    obtain ⟨f, hfT, hf⟩ := meetsFinal_iff.1 haccepting
    obtain ⟨q, hq, hpath⟩ := (((h.runFrom_powerset_iff hS).1 hT).2 f).1 hfT
    exact ⟨q, hq, w, f, hf, hpath⟩
  · intro huseful
    obtain ⟨q, hq, w, f, hf, hpath⟩ := huseful
    obtain ⟨hne, v, rfl⟩ := h.mem_states_powerset.1 hS
    -- the word leads the machine to a set with an accepting member
    have hmem : f ∈ fa.runFrom (fa.run v) w := (h.mem_runFrom h.closed_run).2 ⟨q, hq, hpath⟩
    refine ⟨w, (h.lawful_powerset.acceptsFrom_toAutomaton hS).2
      ⟨fa.runFrom (fa.run v) w, ?_, meetsFinal_iff.2 ⟨f, hmem, hf⟩⟩⟩
    exact (h.runFrom_powerset hne).2 ⟨rfl, LabelSet.ne_empty_of_mem hmem⟩

/-- The live sets are the states of the powerset machine that trimming leaves. -/
theorem liveSet_iff : fa.LiveSet S ↔ S ∈ fa.powerset.states ∧
    fa.powerset.label LabelSet.describe S ∈
      (fa.powerset.toAutomaton LabelSet.describe).removeUseless.states := by
  have hlawful := h.lawful_powerset
  rw [(hlawful.wellFormed LabelSet.describe).mem_states_removeUseless]
  constructor
  · intro hlive
    obtain ⟨w, hw⟩ := hlive.1
    have hS : S ∈ fa.powerset.states :=
      h.mem_states_powerset.2 ⟨hlive.ne_empty, w, h.run_eq_iff.2 hw⟩
    exact ⟨hS, hlawful.mem_states_toAutomaton.2 ⟨S, hS, rfl⟩, (h.useful_label_iff hS).2 hlive.2⟩
  · intro hkept
    obtain ⟨hS, -, huseful⟩ := hkept
    obtain ⟨-, w, hw⟩ := h.mem_states_powerset.1 hS
    exact ⟨⟨w, h.run_eq_iff.1 hw⟩, (h.useful_label_iff hS).1 huseful⟩

/-! ### The determinized automaton -/

theorem determinize_eq (hinitial : fa.initial ≠ none) : fa.determinize =
    (fa.powerset.toAutomaton LabelSet.describe).removeUseless.rename := by
  obtain ⟨p, hp⟩ := Option.ne_none_iff_exists'.1 hinitial
  have hstart : fa.start ≠ ∅ :=
    LabelSet.ne_empty_of_mem (h.mem_start.2 ⟨p, hp, .nil p⟩)
  have hsome : fa.powerset.initial = some fa.start := initial_powerset_eq_some.2 ⟨rfl, hstart⟩
  rw [Automaton.determinize, hsome]
  rfl

/-- Nothing superfluous is left in a determinized automaton with an initial state. -/
theorem trimmed_determinize (hinitial : fa.initial ≠ none) : fa.determinize.Trimmed := by
  have hlawful := h.lawful_powerset
  rw [h.determinize_eq hinitial]
  refine ((hlawful.wellFormed _).trimmed_removeUseless (hlawful.deterministic_toAutomaton _)
    fun q hq => ?_).rename
  obtain ⟨S, hS, rfl⟩ := hlawful.mem_states_toAutomaton.1 hq
  obtain ⟨hne, w, rfl⟩ := h.mem_states_powerset.1 hS
  have hstart := start_ne_empty hne
  exact hlawful.reached_toAutomaton (initial_powerset_eq_some.2 ⟨rfl, hstart⟩)
    ((h.runFrom_powerset hstart).2 ⟨rfl, hne⟩)

variable (hinitial : fa.initial ≠ none)

include hinitial

/-- Every live set has a name of its own, and there are no other states. -/
theorem bijOn_setName :
    Set.BijOn fa.setName {S | fa.LiveSet S} {q | q ∈ fa.determinize.states} := by
  have hlawful := h.lawful_powerset
  have hbuilt := hlawful.wellFormed LabelSet.describe
  rw [h.determinize_eq hinitial]
  refine ⟨?_, ?_, ?_⟩
  · intro S hS
    exact mem_states_rename.2 ⟨_, (h.liveSet_iff.1 hS).2, rfl⟩
  · intro S hS T hT heq
    obtain ⟨hS, hlabelS⟩ := h.liveSet_iff.1 hS
    obtain ⟨hT, hlabelT⟩ := h.liveSet_iff.1 hT
    -- the names tell the labels apart, and the labels tell the sets apart
    exact Machine.label_inj hS hT (hbuilt.removeUseless.injOn_newName .full hlabelS hlabelT heq)
  · intro q hq
    obtain ⟨p, hp, rfl⟩ := mem_states_rename.1 hq
    obtain ⟨S, hS, rfl⟩ := hlawful.mem_states_toAutomaton.1 (hbuilt.mem_states_removeUseless.1 hp).1
    exact ⟨S, h.liveSet_iff.2 ⟨hS, hp⟩, rfl⟩

theorem initial_determinize_eq_some {q : Label} : fa.determinize.initial = some q ↔
    ∃ S, fa.LiveSet S ∧ (∀ r, r ∈ S ↔ ∃ p, fa.initial = some p ∧ fa.Path p [] r) ∧
      fa.setName S = q := by
  have hlawful := h.lawful_powerset
  have hbuilt := hlawful.wellFormed LabelSet.describe
  rw [h.determinize_eq hinitial, initial_rename, Option.map_eq_some_iff]
  constructor
  · intro hq
    obtain ⟨p, hp, rfl⟩ := hq
    have hmem := hbuilt.removeUseless.initial_mem hp
    obtain ⟨hp, -⟩ := hbuilt.initial_removeUseless_eq_some.1 hp
    rw [hlawful.initial_toAutomaton, Option.map_eq_some_iff] at hp
    obtain ⟨S, hS, rfl⟩ := hp
    refine ⟨S, h.liveSet_iff.2 ⟨hlawful.initial_mem hS, hmem⟩, ?_, rfl⟩
    exact h.run_eq_iff.1 (initial_powerset_eq_some.1 hS).1
  · intro hq
    obtain ⟨S, hlive, hS, rfl⟩ := hq
    have hlabel := (h.liveSet_iff.1 hlive).2
    have hfirst : fa.powerset.initial = some S :=
      initial_powerset_eq_some.2 ⟨h.run_eq_iff.2 hS, hlive.ne_empty⟩
    refine ⟨_, hbuilt.initial_removeUseless_eq_some.2
      ⟨?_, (hbuilt.mem_states_removeUseless.1 hlabel).2⟩, rfl⟩
    rw [hlawful.initial_toAutomaton, hfirst, Option.map_some]

theorem setName_mem_finals_iff (hS : fa.LiveSet S) :
    fa.setName S ∈ fa.determinize.finals ↔ ∃ q ∈ S, q ∈ fa.finals := by
  have hlawful := h.lawful_powerset
  have hbuilt := hlawful.wellFormed LabelSet.describe
  obtain ⟨hS, hlabel⟩ := h.liveSet_iff.1 hS
  rw [h.determinize_eq hinitial, setName, hbuilt.removeUseless.mem_finals_rename hlabel,
    hbuilt.mem_finals_removeUseless, hlawful.mem_finals_toAutomaton]
  constructor
  · intro hfinal
    obtain ⟨T, hT, haccepting, heq⟩ := hfinal
    rw [Machine.label_inj hT hS heq] at haccepting
    exact meetsFinal_iff.1 haccepting
  · intro hfinal
    exact ⟨S, hS, meetsFinal_iff.2 hfinal, rfl⟩

theorem setName_mem_targets_iff (hS : fa.LiveSet S) (hT : fa.LiveSet T) :
    fa.setName T ∈ fa.determinize.targets (fa.setName S) s ↔
      ∀ q, q ∈ T ↔ ∃ p ∈ S, fa.Path p [s] q := by
  have hlawful := h.lawful_powerset
  have hbuilt := hlawful.wellFormed LabelSet.describe
  have hne := hT.ne_empty
  obtain ⟨hS, hlabelS⟩ := h.liveSet_iff.1 hS
  obtain ⟨hT, hlabelT⟩ := h.liveSet_iff.1 hT
  rw [h.determinize_eq hinitial, setName, setName,
    hbuilt.removeUseless.mem_targets_rename hlabelS hlabelT, hbuilt.mem_targets_removeUseless,
    and_iff_right (hbuilt.mem_states_removeUseless.1 hlabelT).2,
    hlawful.mem_targets_toAutomaton hS, ← h.step_powerset_iff hS hne]
  constructor
  · intro hstep
    obtain ⟨hs, T', hT', heq⟩ := hstep
    have hTT' : T' = T := Machine.label_inj (hlawful.step_mem hS hs hT') hT heq
    exact ⟨hs, hTT' ▸ hT'⟩
  · intro hstep
    exact ⟨hstep.1, T, hstep.2, rfl⟩

/-- **The states of the determinized automaton stand for the live sets.** -/
theorem liveSets_determinize : LiveSets fa fa.determinize fa.setName where
  bijOn := h.bijOn_setName hinitial
  states_nodup := h.determinize.states_nodup
  initial _ := h.initial_determinize_eq_some hinitial
  finals _ hS := h.setName_mem_finals_iff hinitial hS
  targets _ _ _ hS hT := h.setName_mem_targets_iff hinitial hS hT

end WellFormed

/-- **Determinization builds the live part of the powerset machine**: the states stand for
the live sets, nothing happens without reading, and every state and symbol is in use. -/
theorem Obtainable.determinize_liveSets (h : fa.Obtainable) (hinitial : fa.initial ≠ none) :
    (∃ f, LiveSets fa fa.determinize f) ∧ Symbol.epsilon ∉ fa.determinize.alphabet ∧
      (∀ s ∈ fa.determinize.alphabet, ∃ q r, r ∈ fa.determinize.targets q s) ∧
      (∀ q ∈ fa.determinize.states, fa.determinize.Reached q ∧ fa.determinize.Useful q) ∧
      fa.determinize.determinized = true ∧ fa.determinize.isDeterministic = true := by
  have hfa := h.wellFormed
  have htrimmed := hfa.trimmed_determinize hinitial
  refine ⟨⟨_, hfa.liveSets_determinize hinitial⟩, fun hsilent => ?_, fun s => htrimmed.used,
    fun q hq => ⟨htrimmed.reached hq, htrimmed.useful hq⟩, determinized_determinize fa, ?_⟩
  · obtain ⟨q, r, hr⟩ := htrimmed.used hsilent
    exact htrimmed.deterministic.not_silent hr
  · exact htrimmed.wellFormed.isDeterministic_iff.2 htrimmed.deterministic

/-- The automaton of `S -> aS | a` has an initial state. -/
theorem determinize_liveSets_choice :
    (ofDraft (.ofText "S -> aS | a")).initial ≠ none ∧
      ∃ f, LiveSets (ofDraft (.ofText "S -> aS | a"))
        (ofDraft (.ofText "S -> aS | a")).determinize f := by
  have hinitial : (ofDraft (.ofText "S -> aS | a")).initial ≠ none := by decide +kernel
  exact ⟨hinitial, ((Obtainable.ofText _).determinize_liveSets hinitial).1⟩

end Automaton

end FiniteState
