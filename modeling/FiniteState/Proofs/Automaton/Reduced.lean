import FiniteState.Proofs.Automaton.Renaming

/-!
# Reduced automata are unique

A deterministic automaton is *reduced* when nothing can be left out of it and no
two of its states accept the same words.  In another automaton for the language, a
state of a reduced one has a counterpart that accepts the same words: the state
that the same word leads to.  Counterparts of different states differ.  So a reduced
automaton has the fewest states, and between two reduced automata the counterparts
are an isomorphism.

## Main definitions

* `Automaton.Matching` — two states of two automata accept the same words.
* `Automaton.Trimmed`, `Automaton.Reduced` — the automata without superfluous
  states, and among these the reduced ones.
* `Automaton.Isomorphism` — a correspondence of the states that keeps all marks and
  transitions.

## Main results

* `Reduced.exists_isomorphism` — **two reduced automata for one language are
  isomorphic**.
* `Reduced.length_states_le` — **no automaton for the language has fewer states**.
-/

namespace FiniteState.Automaton

variable {fa fb fc : Automaton} {p q r : Label} {s : Symbol} {u v w : List Symbol}

/-- A state of one automaton and a state of another accept the same words. -/
def Matching (fa fb : Automaton) (q r : Label) : Prop :=
  ∀ w, fa.AcceptsFrom q w ↔ fb.AcceptsFrom r w

/-- Both automata accept the same words. -/
def SameLanguage (fa fb : Automaton) : Prop := ∀ w, fa.accepts w = fb.accepts w

/-- A deterministic automaton without superfluous states and symbols. -/
structure Trimmed (fa : Automaton) : Prop where
  /-- The table is well formed. -/
  wellFormed : fa.WellFormed
  /-- No state has a choice. -/
  deterministic : fa.Deterministic
  /-- Every state is reached from the initial one. -/
  reached : ∀ {q}, q ∈ fa.states → fa.Reached q
  /-- Every state reaches an accepting one. -/
  useful : ∀ {q}, q ∈ fa.states → fa.Useful q
  /-- Every symbol leads somewhere. -/
  used : ∀ {s}, s ∈ fa.alphabet → ∃ q r, r ∈ fa.targets q s

/-- **A trimmed automaton, no two states of which accept the same words.** -/
structure Reduced (fa : Automaton) : Prop extends fa.Trimmed where
  /-- States that accept the same words are the same. -/
  separated : ∀ {q r}, q ∈ fa.states → r ∈ fa.states → fa.Matching fa q r → q = r

/-- A correspondence of the states that keeps the initial state, the accepting
states and the transitions. -/
structure Isomorphism (fa fb : Automaton) (f : Label → Label) : Prop where
  /-- Every state of the one corresponds to a state of the other. -/
  bijOn : Set.BijOn f {q | q ∈ fa.states} {q | q ∈ fb.states}
  /-- The initial states correspond. -/
  initial : fa.initial.map f = fb.initial
  /-- The accepting states correspond. -/
  finals : ∀ q ∈ fa.states, f q ∈ fb.finals ↔ q ∈ fa.finals
  /-- The transitions correspond. -/
  targets : ∀ q ∈ fa.states, ∀ r ∈ fa.states, ∀ s,
    f r ∈ fb.targets (f q) s ↔ r ∈ fa.targets q s

/-! ### Trimmed automata -/

/-- What is live of a deterministic automaton is trimmed. -/
theorem WellFormed.trimmed_live (h : fa.WellFormed) (hdet : fa.Deterministic) :
    fa.live.Trimmed where
  wellFormed := h.live
  deterministic := hdet.mono h.mem_targets_of_live
  reached := h.reached_live
  useful := h.useful_live
  used := h.used_live

/-- A trimmed automaton is trimmed under other names. -/
theorem Trimmed.relabel (h : fa.Trimmed) {f : Label → Label}
    (hinj : Set.InjOn f {q | q ∈ fa.states}) : (fa.relabel f).Trimmed where
  wellFormed := h.wellFormed.relabel hinj
  deterministic := h.deterministic.relabel hinj
  reached hq := by
    rw [states_relabel] at hq
    obtain ⟨p, hp, rfl⟩ := List.mem_map.1 hq
    exact h.wellFormed.reached_relabel hinj (h.reached hp)
  useful hq := by
    rw [states_relabel] at hq
    obtain ⟨p, hp, rfl⟩ := List.mem_map.1 hq
    obtain ⟨w, hw⟩ := h.useful hp
    exact ⟨w, (h.wellFormed.acceptsFrom_relabel hinj hp).2 hw⟩
  used hs := by
    obtain ⟨q, r, hr⟩ := h.used hs
    have hq := mem_states_of_mem_targets _ hr
    exact ⟨f q, f r, (fa.mem_targets_relabel hinj hq).2 ⟨r, hr, rfl⟩⟩

theorem Trimmed.rename (h : fa.Trimmed) : fa.rename.Trimmed := by
  rw [rename_eq]
  exact h.relabel (h.wellFormed.injOn_newName .full)

/-! ### Matching states -/

namespace Matching

theorem symm (h : fa.Matching fb q r) : fb.Matching fa r q := fun w => (h w).symm

theorem trans (hqr : fa.Matching fb q r) (hrp : fb.Matching fc r p) : fa.Matching fc q p :=
  fun w => (hqr w).trans (hrp w)

/-- The states that a word leads to from matching states match. -/
theorem path (h : fa.Matching fb q r) (hfa : fa.Deterministic) (hfb : fb.Deterministic)
    {q' r' : Label} (hq : fa.Path q u q') (hr : fb.Path r u r') : fa.Matching fb q' r' := by
  intro w
  rw [← acceptsFrom_append_iff hfa hq, ← acceptsFrom_append_iff hfb hr]
  exact h (u ++ w)

end Matching

/-- The initial states of automata for one language match. -/
theorem matching_initial (hfa : fa.WellFormed) (hfb : fb.WellFormed)
    (hlang : fa.SameLanguage fb) (hp : fa.initial = some p) (hq : fb.initial = some q) :
    fa.Matching fb p q := by
  intro w
  have := Bool.eq_iff_iff.1 (hlang w)
  rw [hfa.accepts_iff, hfb.accepts_iff] at this
  simpa [hp, hq] using this

theorem SameLanguage.symm (h : fa.SameLanguage fb) : fb.SameLanguage fa := fun w => (h w).symm

/-- **A state in use has a counterpart** in every automaton for the language: the
state that the same word leads to. -/
theorem exists_matching (hfa : fa.WellFormed) (hdet : fa.Deterministic) (hfb : fb.WellFormed)
    (hdet' : fb.Deterministic) (hlang : fa.SameLanguage fb) (hreached : fa.Reached q)
    (huseful : fa.Useful q) : ∃ r ∈ fb.states, fa.Matching fb q r := by
  obtain ⟨p, u, hp, hpq⟩ := hreached
  obtain ⟨v, hv⟩ := huseful
  -- the word that leads to the state, completed to one that is accepted, has a path there
  have haccepts : fa.accepts (u ++ v) = true :=
    hfa.accepts_iff.2 ⟨p, hp, (acceptsFrom_append_iff hdet hpq).2 hv⟩
  rw [hlang, hfb.accepts_iff] at haccepts
  obtain ⟨p', hp', haccepts⟩ := haccepts
  obtain ⟨r, hr, -⟩ := acceptsFrom_append.1 haccepts
  exact ⟨r, hr.mem_states hfb (hfb.initial_mem hp'),
    (matching_initial hfa hfb hlang hp hp').path hdet hdet' hpq hr⟩

/-- Of matching states, one accepts if the other does. -/
theorem Matching.final_iff (h : fa.Matching fb q r) (hfa : fa.Deterministic)
    (hfb : fb.Deterministic) : q ∈ fa.finals ↔ r ∈ fb.finals := by
  rw [← acceptsFrom_nil_iff hfa.not_silent, ← acceptsFrom_nil_iff hfb.not_silent]
  exact h []

/-- A transition to a useful state has a counterpart. -/
theorem Matching.step (h : fa.Matching fb q r) (hfa : fa.Deterministic) (hfb : fb.Deterministic)
    {q' : Label} (hstep : q' ∈ fa.targets q s) (huseful : fa.Useful q') :
    ∃ r' ∈ fb.targets r s, fa.Matching fb q' r' := by
  obtain ⟨v, hv⟩ := huseful
  have haccepts : fb.AcceptsFrom r (s :: v) :=
    (h (s :: v)).1 ((acceptsFrom_cons_iff hfa.not_silent).2 ⟨q', hstep, hv⟩)
  obtain ⟨r', hr', -⟩ := (acceptsFrom_cons_iff hfb.not_silent).1 haccepts
  refine ⟨r', hr', h.path hfa hfb (u := [s]) ?_ ?_⟩
  · exact (Path.cons_iff_of_not_silent hfa.not_silent).2 ⟨q', hstep, .nil q'⟩
  · exact (Path.cons_iff_of_not_silent hfb.not_silent).2 ⟨r', hr', .nil r'⟩

/-! ### Uniqueness -/

namespace Reduced

/-- Counterparts of different states differ. -/
theorem eq_of_matching (h : fa.Reduced) {q' : Label} (hq : q ∈ fa.states) (hq' : q' ∈ fa.states)
    (hr : fa.Matching fb q r) (hr' : fa.Matching fb q' r) : q = q' :=
  h.separated hq hq' (hr.trans hr'.symm)

/-- Every state has a counterpart in every automaton for the language. -/
theorem exists_counterpart (h : fa.Reduced) (hfb : fb.WellFormed) (hdet : fb.Deterministic)
    (hlang : fa.SameLanguage fb) (hq : q ∈ fa.states) : ∃ r ∈ fb.states, fa.Matching fb q r :=
  exists_matching h.wellFormed h.deterministic hfb hdet hlang (h.reached hq) (h.useful hq)

/-- **No automaton for the language has fewer states** than a reduced one. -/
theorem length_states_le (h : fa.Reduced) (hfb : fb.WellFormed) (hdet : fb.Deterministic)
    (hlang : fa.SameLanguage fb) : fa.states.length ≤ fb.states.length := by
  choose! f hmem hmatching using fun q hq =>
    h.exists_counterpart hfb hdet hlang (q := q) hq
  -- the counterparts are as many as the states, and are states of the other automaton
  have hnd : (fa.states.map f).Nodup := by
    refine h.wellFormed.states_nodup.map_on fun q hq q' hq' heq => ?_
    have := hmatching q' hq'
    rw [← heq] at this
    exact h.eq_of_matching hq hq' (hmatching q hq) this
  have hsub : fa.states.map f ⊆ fb.states := by
    intro r hr
    obtain ⟨q, hq, rfl⟩ := List.mem_map.1 hr
    exact hmem q hq
  have hlen := (List.subperm_of_subset hnd hsub).length_le
  rwa [List.length_map] at hlen

section Isomorphism

variable (hfa : fa.Reduced) (hfb : fb.Reduced) {f : Label → Label}
  (hmem : ∀ q ∈ fa.states, f q ∈ fb.states)
  (hmatching : ∀ q ∈ fa.states, fa.Matching fb q (f q))

include hfb hmem hmatching

/-- The counterpart of a state is the only state that matches it. -/
theorem counterpart_unique (hq : q ∈ fa.states) (hr : r ∈ fb.states) (h : fa.Matching fb q r) :
    f q = r :=
  hfb.separated (hmem q hq) hr ((hmatching q hq).symm.trans h)

include hfa

theorem bijOn_counterpart (hlang : fa.SameLanguage fb) :
    Set.BijOn f {q | q ∈ fa.states} {q | q ∈ fb.states} := by
  refine ⟨hmem, fun q hq q' hq' heq => ?_, fun r hr => ?_⟩
  · refine hfa.eq_of_matching hq hq' (hmatching q hq) ?_
    rw [heq]
    exact hmatching q' hq'
  · -- the state that matches from the other side is mapped back
    obtain ⟨q, hq, h⟩ := hfb.exists_counterpart hfa.wellFormed hfa.deterministic hlang.symm hr
    exact ⟨q, hq, counterpart_unique hfb hmem hmatching hq hr h.symm⟩

theorem initial_counterpart (hlang : fa.SameLanguage fb) : fa.initial.map f = fb.initial := by
  cases hp : fa.initial with
  | some p =>
    have hstate := hfa.wellFormed.initial_mem hp
    -- the language is not empty, so the other automaton has an initial state
    obtain ⟨v, hv⟩ := hfa.useful hstate
    have haccepts := hfa.wellFormed.accepts_iff.2 ⟨p, hp, hv⟩
    rw [hlang, hfb.wellFormed.accepts_iff] at haccepts
    obtain ⟨p', hp', -⟩ := haccepts
    rw [hp', Option.map_some]
    refine congrArg some (counterpart_unique hfb hmem hmatching hstate
      (hfb.wellFormed.initial_mem hp') ?_)
    exact matching_initial hfa.wellFormed hfb.wellFormed hlang hp hp'
  | none =>
    cases hp' : fb.initial with
    | none => rfl
    | some p' =>
      obtain ⟨v, hv⟩ := hfb.useful (hfb.wellFormed.initial_mem hp')
      have haccepts := hfb.wellFormed.accepts_iff.2 ⟨p', hp', hv⟩
      rw [← hlang, hfa.wellFormed.accepts_iff] at haccepts
      obtain ⟨p, hp₂, -⟩ := haccepts
      rw [hp] at hp₂
      cases hp₂

theorem targets_counterpart (hq : q ∈ fa.states) (hr : r ∈ fa.states) :
    f r ∈ fb.targets (f q) s ↔ r ∈ fa.targets q s := by
  constructor
  · intro h
    obtain ⟨r', hr', hmatch⟩ := (hmatching q hq).symm.step hfb.deterministic hfa.deterministic h
      (hfb.useful (hmem r hr))
    obtain rfl := hfa.eq_of_matching hr (hfa.wellFormed.target_mem hr') (hmatching r hr)
      hmatch.symm
    exact hr'
  · intro h
    obtain ⟨r', hr', hmatch⟩ := (hmatching q hq).step hfa.deterministic hfb.deterministic h
      (hfa.useful hr)
    rwa [counterpart_unique hfb hmem hmatching hr (hfb.wellFormed.target_mem hr') hmatch]

end Isomorphism

/-- **Two reduced automata for one language are isomorphic.** -/
theorem exists_isomorphism (hfa : fa.Reduced) (hfb : fb.Reduced) (hlang : fa.SameLanguage fb) :
    ∃ f, fa.Isomorphism fb f := by
  choose! f hmem hmatching using fun q hq =>
    hfa.exists_counterpart hfb.wellFormed hfb.deterministic hlang (q := q) hq
  exact ⟨f, bijOn_counterpart hfa hfb hmem hmatching hlang,
    initial_counterpart hfa hfb hmem hmatching hlang,
    fun q hq => ((hmatching q hq).final_iff hfa.deterministic hfb.deterministic).symm,
    fun q hq r hr s => targets_counterpart hfa hfb hmem hmatching hq hr⟩

/-- Reduced automata for one language have the same symbols. -/
theorem alphabet_subset (hfa : fa.Reduced) (hfb : fb.Reduced) (hlang : fa.SameLanguage fb) :
    fa.alphabet ⊆ fb.alphabet := by
  intro s hs
  obtain ⟨q, r, hr⟩ := hfa.used hs
  obtain ⟨f, hf⟩ := exists_isomorphism hfa hfb hlang
  have hq := mem_states_of_mem_targets _ hr
  exact hfb.wellFormed.symbol_mem
    ((hf.targets q hq r (hfa.wellFormed.target_mem hr) s).2 hr)

/-! ### Renaming -/

/-- A reduced automaton is reduced under other names. -/
theorem relabel (h : fa.Reduced) {f : Label → Label}
    (hinj : Set.InjOn f {q | q ∈ fa.states}) : (fa.relabel f).Reduced where
  toTrimmed := h.toTrimmed.relabel hinj
  separated hq hr hmatch := by
    rw [states_relabel] at hq hr
    obtain ⟨q', hq', rfl⟩ := List.mem_map.1 hq
    obtain ⟨r', hr', rfl⟩ := List.mem_map.1 hr
    refine congrArg f (h.separated hq' hr' fun w => ?_)
    rw [← h.wellFormed.acceptsFrom_relabel hinj hq', ← h.wellFormed.acceptsFrom_relabel hinj hr']
    exact hmatch w

theorem rename (h : fa.Reduced) : fa.rename.Reduced := by
  rw [rename_eq]
  exact h.relabel (h.wellFormed.injOn_newName .full)

end Reduced

end FiniteState.Automaton
