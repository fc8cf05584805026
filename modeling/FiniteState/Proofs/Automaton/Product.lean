import Mathlib.Data.List.ProdSigma
import FiniteState.Automaton.Product
import FiniteState.Proofs.Automaton.Machine
import FiniteState.Proofs.Automaton.Renaming

/-!
# Union and intersection are well formed

The union puts two tables side by side, so no label may name a state of both.  The
pool that renames the left automaton knows the labels of the right one, and the
two new states are taken from what is left of it.  The intersection runs over the
pairs of states that words lead to, which is a lawful machine.

## Main definitions

* `Automaton.Apart` — no label names two of the states that are put side by side.

## Main results

* `mem_targets_joined_left`, `Apart.mem_targets_joined_right`,
  `Apart.mem_targets_joined_start`, `Apart.notMem_targets_joined_accept` — the
  transitions of joined automata.
* `WellFormed.joined` — joined automata are well formed.
* `apart_union` — **the operands of a union are kept apart**.
* `lawful_pairs` — **two deterministic automata side by side are a lawful machine**.
-/

namespace FiniteState.Automaton

variable {fa fb : Automaton} {start accept : Label} {p q r : Label} {s : Symbol}

/-! ### Union -/

/-- No label names two of the states of automata that are joined. -/
structure Apart (fa fb : Automaton) (start accept : Label) : Prop where
  /-- The automata have no state in common. -/
  disjoint : ∀ q ∈ fa.states, q ∉ fb.states
  /-- The new initial state is not on the left. -/
  start_left : start ∉ fa.states
  /-- The new initial state is not on the right. -/
  start_right : start ∉ fb.states
  /-- The new accepting state is not on the left. -/
  accept_left : accept ∉ fa.states
  /-- The new accepting state is not on the right. -/
  accept_right : accept ∉ fb.states
  /-- The new states differ. -/
  start_ne_accept : start ≠ accept

theorem targets_cellD (fa : Automaton) (q : Label) (s : Symbol) :
    (fa.cellD q s).targets = fa.targets q s := by
  unfold cellD targets
  cases fa.cell? q s with
  | none => rfl
  | some c => rfl

theorem mem_targets_joinedCell {c : Cell} : r ∈ (fa.joinedCell accept c q s).targets ↔
    r ∈ c.targets ∨ s = Symbol.epsilon ∧ q ∈ fa.finals ∧ r = accept := by
  unfold joinedCell
  split
  · rename_i hmoves
    rw [Bool.and_eq_true, Symbol.isEpsilon_iff, isFinal_iff] at hmoves
    rw [Cell.mapTargets, LabelSet.mem_insert, or_comm]
    simp [hmoves.1, hmoves.2]
  · rename_i hmoves
    rw [Bool.and_eq_true, Symbol.isEpsilon_iff, isFinal_iff] at hmoves
    refine (or_iff_left ?_).symm
    exact fun h => hmoves ⟨h.1, h.2.1⟩

theorem mem_joinedAlphabet :
    s ∈ joinedAlphabet fa fb ↔ s ∈ fa.alphabet ∨ s ∈ fb.alphabet ∨ s = Symbol.epsilon := by
  simp [joinedAlphabet, List.mem_eraseDups]

theorem states_tabulate (alphabet : List Symbol) (states : List Label)
    (cell : Label → Symbol → Cell) :
    (tabulate alphabet states cell).map Prod.fst = states := by
  rw [tabulate, List.map_map]
  exact List.map_id _

theorem states_joined : (joined fa fb start accept).states =
    fa.states ++ fb.states ++ [start] ++ [accept] := by
  unfold states joined
  simp only [List.map_append, states_tabulate]
  rfl

theorem mem_states_joined : q ∈ (joined fa fb start accept).states ↔
    q ∈ fa.states ∨ q ∈ fb.states ∨ q = start ∨ q = accept := by
  simp [states_joined]

/-- The row of a state stands in the first of the four tables that has the state. -/
theorem row?_joined : (joined fa fb start accept).row? q =
    (((tabulate (joinedAlphabet fa fb) fa.states
        fun q s => fa.joinedCell accept (fa.cellD q s) q s).lookup q).or
      ((tabulate (joinedAlphabet fa fb) fb.states
        fun q s => fb.joinedCell accept (.ofTargets (fb.targets q s)) q s).lookup q)).or
      (((tabulate (joinedAlphabet fa fb) [start] fun _ s =>
        if Symbol.isEpsilon s then
          .ofTargets (.ofList (fa.initial.toList ++ fb.initial.toList))
        else .empty).lookup q).or
      ((tabulate (joinedAlphabet fa fb) [accept] fun _ _ => .empty).lookup q)) := by
  unfold row? joined
  simp only [List.lookup_append, Option.or_assoc]

theorem mem_targets_joined_left (hfa : fa.WellFormed) (hq : q ∈ fa.states) :
    r ∈ (joined fa fb start accept).targets q s ↔
      r ∈ fa.targets q s ∨ s = Symbol.epsilon ∧ q ∈ fa.finals ∧ r = accept := by
  rw [targets_eq, row?_joined, lookup_tabulate, if_pos hq, Option.some_or, Option.some_or,
    Option.map_some, Option.getD_some, Row.targets_tabulated]
  split
  · rw [mem_targets_joinedCell, targets_cellD]
  · rename_i hs
    rw [mem_joinedAlphabet, not_or, not_or] at hs
    refine iff_of_false (LabelSet.notMem_empty r) ?_
    rintro (hr | ⟨rfl, -⟩)
    · exact hs.1 (hfa.symbol_mem hr)
    · exact hs.2.2 rfl

namespace Apart

variable (h : Apart fa fb start accept)

include h

theorem mem_targets_joined_right (hfb : fb.WellFormed) (hq : q ∈ fb.states) :
    r ∈ (joined fa fb start accept).targets q s ↔
      r ∈ fb.targets q s ∨ s = Symbol.epsilon ∧ q ∈ fb.finals ∧ r = accept := by
  have hleft : q ∉ fa.states := fun hmem => h.disjoint q hmem hq
  rw [targets_eq, row?_joined, lookup_tabulate, if_neg hleft, lookup_tabulate, if_pos hq,
    Option.none_or, Option.some_or, Option.map_some, Option.getD_some, Row.targets_tabulated]
  split
  · rw [mem_targets_joinedCell]
    rfl
  · rename_i hs
    rw [mem_joinedAlphabet, not_or, not_or] at hs
    refine iff_of_false (LabelSet.notMem_empty r) ?_
    rintro (hr | ⟨rfl, -⟩)
    · exact hs.2.1 (hfb.symbol_mem hr)
    · exact hs.2.2 rfl

/-- The new initial state moves to the two old ones without reading. -/
theorem mem_targets_joined_start : r ∈ (joined fa fb start accept).targets start s ↔
    s = Symbol.epsilon ∧ (fa.initial = some r ∨ fb.initial = some r) := by
  rw [targets_eq, row?_joined, lookup_tabulate, if_neg h.start_left, lookup_tabulate,
    if_neg h.start_right, lookup_tabulate, if_pos List.mem_cons_self, Option.none_or,
    Option.none_or, Option.some_or, Option.map_some, Option.getD_some, Row.targets_tabulated]
  by_cases hs : s = Symbol.epsilon
  · subst hs
    have hmem : Symbol.epsilon ∈ joinedAlphabet fa fb := mem_joinedAlphabet.2 (.inr (.inr rfl))
    rw [if_pos hmem, if_pos (Symbol.isEpsilon_iff.2 rfl)]
    simp [Cell.ofTargets]
  · refine iff_of_false ?_ fun hr => hs hr.1
    split
    · rw [if_neg (fun he => hs (Symbol.isEpsilon_iff.1 he))]
      exact LabelSet.notMem_empty r
    · exact LabelSet.notMem_empty r

/-- The new accepting state is not left. -/
theorem notMem_targets_joined_accept : r ∉ (joined fa fb start accept).targets accept s := by
  have hne : accept ∉ [start] := by simpa using h.start_ne_accept.symm
  rw [targets_eq, row?_joined, lookup_tabulate, if_neg h.accept_left, lookup_tabulate,
    if_neg h.accept_right, lookup_tabulate, if_neg hne, lookup_tabulate,
    if_pos List.mem_cons_self, Option.none_or, Option.none_or, Option.none_or, Option.map_some,
    Option.getD_some, Row.targets_tabulated]
  split <;> exact LabelSet.notMem_empty r

end Apart

/-- **Joined automata are well formed.** -/
theorem WellFormed.joined (hfa : fa.WellFormed) (hfb : fb.WellFormed)
    (h : Apart fa fb start accept) : (joined fa fb start accept).WellFormed where
  states_nodup := by
    rw [states_joined, List.append_assoc, List.append_assoc, List.nodup_append']
    refine ⟨hfa.states_nodup, List.nodup_append'.2 ⟨hfb.states_nodup, ?_, ?_⟩, ?_⟩
    · simpa using h.start_ne_accept
    · intro q hq hq'
      rcases List.mem_append.1 hq' with hq' | hq'
      · exact h.start_right (List.mem_singleton.1 hq' ▸ hq)
      · exact h.accept_right (List.mem_singleton.1 hq' ▸ hq)
    · intro q hq hq'
      rcases List.mem_append.1 hq' with hq' | hq'
      · exact h.disjoint q hq hq'
      · rcases List.mem_append.1 hq' with hq' | hq'
        · exact h.start_left (List.mem_singleton.1 hq' ▸ hq)
        · exact h.accept_left (List.mem_singleton.1 hq' ▸ hq)
  alphabet_nodup := List.nodup_eraseDups _
  row_symbols e he := by
    have hrow : ∀ {states : List Label} {cell : Label → Symbol → Cell},
        e ∈ tabulate (joinedAlphabet fa fb) states cell →
        e.2.map Prod.fst = joinedAlphabet fa fb := by
      intro states cell he
      obtain ⟨q, -, rfl⟩ := List.mem_map.1 he
      exact (List.map_map).trans (List.map_id _)
    unfold Automaton.joined at he
    simp only [List.mem_append] at he
    -- all four tables are tabulated over the joined alphabet
    rcases he with ((he | he) | he) | he <;> exact hrow he
  target_mem {q s r} hr := by
    -- the source is an old state on the left or right, the new start or the new accepting state
    rw [mem_states_joined]
    rcases mem_states_joined.1 (mem_states_of_mem_targets _ hr) with hq | hq | rfl | rfl
    · rcases (mem_targets_joined_left hfa hq).1 hr with hr | ⟨-, -, rfl⟩
      · exact .inl (hfa.target_mem hr)
      · exact .inr (.inr (.inr rfl))
    · rcases (h.mem_targets_joined_right hfb hq).1 hr with hr | ⟨-, -, rfl⟩
      · exact .inr (.inl (hfb.target_mem hr))
      · exact .inr (.inr (.inr rfl))
    · rcases (h.mem_targets_joined_start.1 hr).2 with hr | hr
      · exact .inl (hfa.initial_mem hr)
      · exact .inr (.inl (hfb.initial_mem hr))
    · exact absurd hr h.notMem_targets_joined_accept
  initial_mem hq := by
    obtain rfl := Option.some.inj hq
    exact mem_states_joined.2 (.inr (.inr (.inl rfl)))
  final_mem hq := by
    obtain rfl := List.mem_singleton.1 hq
    exact mem_states_joined.2 (.inr (.inr (.inr rfl)))
  finals_nodup := List.nodup_singleton _
  deterministic hflag := by cases hflag

/-- **The operands of a union are kept apart**: the pool that renames the left automaton knows the
labels of the right one, and what is left of it knows those of both. -/
theorem apart_union (fa fb : Automaton) :
    let pool := ((LabelPool.excluding fb.states).names fa.states).2
    Apart (fa.renameWith (.excluding fb.states)).1 fb pool.take.1 pool.take.2.take.1 := by
  intro pool
  have hused : ∀ {l}, l ∈ fb.states → l ∈ pool.used := fun hl =>
    LabelPool.mem_used_names (LabelPool.mem_used_excluding.2 hl)
  have hnames : ∀ {l}, l ∈ (fa.renameWith (.excluding fb.states)).1.states → l ∈ pool.used := by
    intro l hl
    rw [renameWith_eq, states_relabel] at hl
    obtain ⟨q, hq, rfl⟩ := List.mem_map.1 hl
    exact LabelPool.mem_used_of_mem_names (mem_names _ hq)
  have hstart := pool.take_notMem_used
  have haccept := pool.take.2.take_notMem_used
  rw [LabelPool.used_take, List.mem_cons, not_or] at haccept
  refine ⟨fun l hl hl' => ?_, fun hmem => hstart (hnames hmem), fun hmem => hstart (hused hmem),
    fun hmem => haccept.2 (hnames hmem), fun hmem => haccept.2 (hused hmem),
    fun heq => haccept.1 heq.symm⟩
  rw [renameWith_eq, states_relabel] at hl
  obtain ⟨q, hq, rfl⟩ := List.mem_map.1 hl
  exact newName_notMem _ hq (LabelPool.mem_used_excluding.2 hl')

/-- A union joins the left automaton under other names with the right one, and takes fresh labels
for the two new states. -/
theorem exists_union (hboth : bothDeterminized fa fb = true) :
    ∃ pool i j, Apart (fa.renameWith pool).1 fb (Label.nth i) (Label.nth j) ∧
      fa.union fb =
        .ok (Automaton.joined (fa.renameWith pool).1 fb (Label.nth i) (Label.nth j)) := by
  refine ⟨_, _, _, apart_union fa fb, ?_⟩
  unfold Automaton.union
  rw [if_pos hboth]
  rfl

/-- So only automata flagged as determinized are united, and only in this way. -/
theorem union_eq_ok {fc : Automaton} (h : fa.union fb = .ok fc) :
    ∃ pool i j, Apart (fa.renameWith pool).1 fb (Label.nth i) (Label.nth j) ∧
      fc = Automaton.joined (fa.renameWith pool).1 fb (Label.nth i) (Label.nth j) := by
  by_cases hboth : bothDeterminized fa fb = true
  · obtain ⟨pool, i, j, hapart, heq⟩ := exists_union hboth
    rw [heq] at h
    exact ⟨pool, i, j, hapart, (Except.ok.inj h).symm⟩
  · rw [Automaton.union, if_neg hboth] at h
    cases h

/-! ### Intersection -/

/-- Only automata flagged as determinized are intersected. -/
theorem intersection_eq_ok {fc : Automaton} (h : fa.intersection fb = .ok fc) :
    bothDeterminized fa fb = true ∧
      fc = ((pairs fa fb).toAutomaton fun (p, q) => p ++ q).rename := by
  unfold intersection at h
  split at h
  · rename_i hboth
    exact ⟨hboth, (Except.ok.inj h).symm⟩
  · cases h

theorem mem_states_allPairs : (p, q) ∈ (allPairs fa fb).states ↔ p ∈ fa.states ∧ q ∈ fb.states :=
  List.mem_product

theorem step_allPairs_eq_some {k l : Label × Label} : (allPairs fa fb).step k s = some l ↔
    (fa.targets k.1 s).first? = some l.1 ∧ (fb.targets k.2 s).first? = some l.2 := by
  obtain ⟨p, q⟩ := k
  obtain ⟨p', q'⟩ := l
  unfold allPairs
  cases hp : (fa.targets p s).first? <;> cases hq : (fb.targets q s).first? <;> simp [hp, hq]

theorem initial_allPairs_eq_some {k : Label × Label} : (allPairs fa fb).initial = some k ↔
    fa.initial = some k.1 ∧ fb.initial = some k.2 := by
  obtain ⟨p, q⟩ := k
  unfold allPairs
  cases fa.initial <;> cases fb.initial <;> simp

section Pairs

variable (hfa : fa.WellFormed) (hfb : fb.WellFormed)

include hfa hfb

theorem initial_allPairs_mem {k : Label × Label} (hk : (allPairs fa fb).initial = some k) :
    k ∈ (allPairs fa fb).states := by
  obtain ⟨hp, hq⟩ := initial_allPairs_eq_some.1 hk
  exact mem_states_allPairs.2 ⟨hfa.initial_mem hp, hfb.initial_mem hq⟩

theorem step_allPairs_mem {k l : Label × Label} (hl : (allPairs fa fb).step k s = some l) :
    l ∈ (allPairs fa fb).states := by
  obtain ⟨hp, hq⟩ := step_allPairs_eq_some.1 hl
  exact mem_states_allPairs.2
    ⟨hfa.target_mem (List.mem_of_mem_head? hp), hfb.target_mem (List.mem_of_mem_head? hq)⟩

/-- The pairs that are kept are those that words lead to. -/
theorem mem_states_pairs {k : Label × Label} : k ∈ (pairs fa fb).states ↔
    ∃ i w, (allPairs fa fb).initial = some i ∧ (allPairs fa fb).runFrom i w = some k := by
  have hexplore := Machine.mem_explore_successors (m := allPairs fa fb) (k := k)
    (fun k hk => initial_allPairs_mem hfa hfb hk)
    (fun k _ s _ l hl => step_allPairs_mem hfa hfb hl) le_rfl
  unfold pairs
  rw [List.mem_filter, List.contains_iff_mem, hexplore]
  refine and_iff_right_of_imp fun ⟨i, w, hi, hrun⟩ => ?_
  -- a run ends where it begins or after a step
  clear hexplore
  have hmem := initial_allPairs_mem hfa hfb hi
  clear hi
  induction w generalizing i with
  | nil => exact Option.some.inj hrun ▸ hmem
  | cons s w ih =>
    obtain ⟨-, i', hi', hrun⟩ := Machine.runFrom_cons_eq_some.1 hrun
    exact ih i' hrun (step_allPairs_mem hfa hfb hi')

/-- **Two deterministic automata side by side are a lawful machine.** -/
theorem lawful_pairs (hdet : fa.Deterministic) : (pairs fa fb).Lawful where
  states_nodup := (hfa.states_nodup.product hfb.states_nodup).filter _
  alphabet_nodup := hfa.alphabet_nodup.filter _
  initial_mem hi := (mem_states_pairs hfa hfb).2 ⟨_, [], hi, rfl⟩
  step_mem {k s l} hk hs hl := by
    obtain ⟨i, w, hi, hw⟩ := (mem_states_pairs hfa hfb).1 hk
    exact (mem_states_pairs hfa hfb).2
      ⟨i, w ++ [s], hi, Machine.runFrom_concat_eq_some hw hs hl⟩
  not_silent _ _ hl := by
    obtain ⟨hp, -⟩ := step_allPairs_eq_some.1 hl
    exact hdet.not_silent (List.mem_of_mem_head? hp)

end Pairs

end FiniteState.Automaton
