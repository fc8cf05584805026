import FiniteState.Proofs.Automaton.Constructions
import FiniteState.Proofs.Automaton.Intersection
import FiniteState.Proofs.Automaton.Named
import FiniteState.Proofs.Split.Merged

/-!
# Pairs of states, written and deleted

The intersection writes a state for each pair of states and deletes those that are not reached.
The running definition leaves them out from the beginning, so that fewer labels are taken when it
adds primes, and a pair can have another label.  These labels are replaced by short names in the
end.  A label with two characters is not kept, and then the names depend on the order of the states
only.

## Main results

* `LabelPool.names_of_no_letter` — where no label is a letter, the names are taken one by one.
* `Machine.Lawful.rename_toAutomaton_congr` — **the labels of a machine do not matter to the
  names**, if none of them is a letter.
* `toAutomaton_pairs_eq` — deleting the pairs that are not reached leaves the running machine.
* `WellFormed.split_intersection` — **the intersection in two collections is the running one**.
-/

namespace FiniteState

/-! ### Labels that are no letters -/

namespace LabelPool

/-- Where no label is a letter, none is kept. -/
theorem reserveAll_of_no_letter {labels : List Label} (h : ∀ l ∈ labels, l.isLetter = false)
    (pool : LabelPool) : pool.reserveAll labels = ([], pool) := by
  induction labels with
  | nil => rfl
  | cons l labels ih =>
    rw [List.forall_mem_cons] at h
    have hreserve : pool.reserve l = (false, pool) := by
      rw [reserve, h.1]
      rfl
    rw [reserveAll, hreserve]
    dsimp only
    rw [ih h.2]
    rfl

theorem nameAll_nil (labels : List Label) (pool : LabelPool) :
    (nameAll [] labels pool).1 = labels.zip (pool.takeMany labels.length).1 := by
  induction labels generalizing pool with
  | nil => rfl
  | cons l labels ih => exact congrArg ((l, pool.take.1) :: ·) (ih pool.take.2)

/-- **Where no label is a letter, the names are taken one by one.** -/
theorem names_of_no_letter {labels : List Label} (h : ∀ l ∈ labels, l.isLetter = false)
    (pool : LabelPool) : (pool.names labels).1 = labels.zip (pool.takeMany labels.length).1 := by
  rw [names, reserveAll_of_no_letter h]
  exact nameAll_nil labels pool

end LabelPool

namespace Label

theorem length_le_addPrimes (taken : List Label) (fuel : ℕ) (l : Label) :
    l.length ≤ (addPrimes taken fuel l).length := by
  induction fuel generalizing l with
  | zero => exact Nat.le_refl _
  | succ fuel ih =>
    rw [addPrimes]
    split
    · refine Nat.le_trans ?_ (ih _)
      rw [String.length_append]
      exact Nat.le_add_right _ _
    · exact Nat.le_refl _

/-- Primes make a label longer. -/
theorem length_le_of_mem_distinctFrom {κ : Type} {describe : κ → Label} {taken : List Label}
    {keys : List κ} {k : κ} {l : Label} (h : (k, l) ∈ distinctFrom describe taken keys) :
    (describe k).length ≤ l.length := by
  induction keys generalizing taken with
  | nil => exact absurd h List.not_mem_nil
  | cons k' keys ih =>
    rcases List.mem_cons.1 h with heq | h
    · obtain ⟨rfl, rfl⟩ := Prod.mk.inj heq
      exact length_le_addPrimes _ _ _
    · exact ih h

/-- A label with two characters is not a letter. -/
theorem isLetter_eq_false {l : Label} (h : 2 ≤ l.length) : l.isLetter = false := by
  rw [← String.length_toList] at h
  unfold isLetter
  split
  · rename_i c hc
    rw [hc] at h
    simp at h
  · rfl

theorem Valid.length_pos {l : Label} (h : l.Valid) : 0 < l.length := by
  obtain ⟨c, rest, hl, -⟩ := h
  rw [← String.length_toList, hl]
  simp

end Label

namespace Machine

variable {κ : Type} [DecidableEq κ] {m : Machine κ} {describe describe' : κ → Label}

theorem length_le_label {k : κ} (hk : k ∈ m.states) :
    (describe k).length ≤ (m.label describe k).length :=
  Label.length_le_of_mem_distinctFrom (List.mem_of_lookup_eq_some (lookup_distinct hk))

namespace Lawful

variable (h : m.Lawful)

include h

/-- The short names are those that a pool hands out, in the order of the states. -/
theorem shortName_eq (hletter : ∀ k ∈ m.states, (m.label describe k).isLetter = false) {k : κ}
    (hk : k ∈ m.states) : m.shortName describe k =
      ((m.states.zip (LabelPool.full.takeMany m.states.length).1).lookup k).getD "" := by
  let taken := (LabelPool.full.takeMany m.states.length).1
  have hstates : (m.toAutomaton describe).states = m.states.map (m.label describe) :=
    h.states_toAutomaton
  have hmem : m.label describe k ∈ (m.toAutomaton describe).states :=
    h.mem_states_toAutomaton.2 ⟨k, hk, rfl⟩
  have hnames : (LabelPool.full.names (m.toAutomaton describe).states).1 =
      (m.states.zip taken).map fun e => (m.label describe e.1, e.2) := by
    rw [LabelPool.names_of_no_letter, hstates, List.length_map]
    · exact List.zip_map_left
    · intro l hl
      obtain ⟨k, hk, rfl⟩ := h.mem_states_toAutomaton.1 hl
      exact hletter k hk
  have hinj : ∀ e ∈ m.states.zip taken,
      m.label describe e.1 = m.label describe k → e.1 = k :=
    fun e he heq => label_inj (List.of_mem_zip he).1 hk heq
  have hlookup := Automaton.lookup_names .full hmem
  rw [hnames, List.lookup_map_keys hinj] at hlookup
  rw [hlookup, Option.getD_some]
  rfl

/-- **The labels of a machine do not matter to the names**, if none of them is a letter. -/
theorem rename_toAutomaton_congr
    (hletter : ∀ k ∈ m.states, (m.label describe k).isLetter = false)
    (hletter' : ∀ k ∈ m.states, (m.label describe' k).isLetter = false) :
    (m.toAutomaton describe).rename = (m.toAutomaton describe').rename := by
  have hname : ∀ k ∈ m.states, m.shortName describe k = m.shortName describe' k := by
    intro k hk
    rw [h.shortName_eq hletter hk, h.shortName_eq hletter' hk]
  have hstates (describe : κ → Label) : (m.toAutomaton describe).rename.states =
      m.states.map (m.shortName describe) := by
    rw [Automaton.rename_eq, Automaton.states_relabel, h.states_toAutomaton, List.map_map]
    rfl
  have halphabet (describe : κ → Label) : (m.toAutomaton describe).rename.alphabet =
      m.alphabet := rfl
  refine (h.constructed describe).rename.ext (h.constructed describe').rename ?_ ?_ ?_
    (fun q => ?_) fun q s r => ?_
  · rw [halphabet, halphabet]
  · rw [hstates, hstates, List.map_congr_left hname]
  · rw [h.initial_rename, h.initial_rename]
    cases hi : m.initial with
    | none => rfl
    | some i => exact congrArg some (hname i (h.initial_mem hi))
  · have hfinals (describe : κ → Label) : (m.toAutomaton describe).rename.finals =
        (m.states.filter m.accepting).map (m.shortName describe) := by
      rw [Automaton.rename_eq, Automaton.finals_relabel, h.finals_toAutomaton, List.map_map]
      rfl
    rw [hfinals, hfinals, List.map_congr_left fun k hk => hname k (List.mem_of_mem_filter hk)]
  · have hsub {describe describe' : κ → Label}
        (hname : ∀ k ∈ m.states, m.shortName describe k = m.shortName describe' k)
        (hr : r ∈ (m.toAutomaton describe).rename.targets q s) :
        r ∈ (m.toAutomaton describe').rename.targets q s := by
      have hq := Automaton.mem_states_of_mem_targets _ hr
      have hr' := (h.wellFormed describe).rename.target_mem hr
      obtain ⟨k, hk, rfl⟩ := (h.mem_states_rename describe).1 hq
      obtain ⟨l, hl, rfl⟩ := (h.mem_states_rename describe).1 hr'
      rw [h.mem_targets_rename describe hk hl] at hr
      rwa [hname k hk, hname l hl, h.mem_targets_rename describe' hk hl]
    exact ⟨hsub hname, hsub fun k hk => (hname k hk).symm⟩

end Lawful

end Machine

/-! ### Pairs -/

namespace SplitAutomaton

theorem foldl_deleteState_withDeterminized (qs : List Label) (a : SplitAutomaton) (flag : Bool) :
    qs.foldl deleteState (a.withDeterminized flag) =
      (qs.foldl deleteState a).withDeterminized flag := by
  induction qs generalizing a with
  | nil => rfl
  | cons q qs ih => rw [List.foldl_cons, deleteState_withDeterminized, ih, List.foldl_cons]

theorem removeUnreachable_withDeterminized (a : SplitAutomaton) (flag : Bool) :
    (a.withDeterminized flag).removeUnreachable = a.removeUnreachable.withDeterminized flag :=
  foldl_deleteState_withDeterminized _ a flag

end SplitAutomaton

open SplitAutomaton

namespace Automaton

variable {fa fb : Automaton}

section Pairs

variable (hfa : fa.WellFormed) (hfb : fb.WellFormed) (hdet : fa.Deterministic)

include hfa hfb hdet

theorem lawful_allPairs : (allPairs fa fb).Lawful where
  states_nodup := hfa.states_nodup.product hfb.states_nodup
  alphabet_nodup := hfa.alphabet_nodup.filter _
  initial_mem hi := initial_allPairs_mem hfa hfb hi
  step_mem _ _ hl := step_allPairs_mem hfa hfb hl
  not_silent _ _ hl := by
    obtain ⟨hp, -⟩ := step_allPairs_eq_some.1 hl
    exact hdet.not_silent (List.mem_of_mem_head? hp)

/-- The pairs that words lead to are those whose labels are reached. -/
theorem reached_label_iff {describe : Label × Label → Label} {k : Label × Label}
    (hk : k ∈ (allPairs fa fb).states) :
    ((allPairs fa fb).toAutomaton describe).Reached ((allPairs fa fb).label describe k) ↔
      k ∈ (pairs fa fb).states := by
  have hall := lawful_allPairs hfa hfb hdet
  rw [mem_states_pairs hfa hfb]
  constructor
  · rintro ⟨p, w, hp, hpath⟩
    rw [hall.initial_toAutomaton, Option.map_eq_some_iff] at hp
    obtain ⟨i, hi, rfl⟩ := hp
    obtain ⟨l, hl, heq⟩ := (hall.path_toAutomaton (hall.initial_mem hi)).1 hpath
    refine ⟨i, w, hi, ?_⟩
    rwa [Machine.label_inj (hall.runFrom_mem (hall.initial_mem hi) hl) hk heq] at hl
  · rintro ⟨i, w, hi, hw⟩
    exact hall.reached_toAutomaton hi hw

/-- **Deleting the pairs that are not reached leaves the running machine.** -/
theorem toAutomaton_pairs_eq (describe : Label × Label → Label) :
    (pairs fa fb).toAutomaton ((allPairs fa fb).label describe) =
      ((allPairs fa fb).toAutomaton describe).removeUnreachable := by
  have hall := lawful_allPairs hfa hfb hdet
  have hpairs := lawful_pairs hfa hfb hdet
  have hwf := hall.wellFormed describe
  have hkept {k} (hk : k ∈ (allPairs fa fb).states) :
      ((allPairs fa fb).toAutomaton describe).reachableFromInitial.contains
        ((allPairs fa fb).label describe k) = true ↔ k ∈ (pairs fa fb).states := by
    rw [hwf.contains_reachableFromInitial, reached_label_iff hfa hfb hdet hk]
  refine hall.toAutomaton_eq_keepStates hpairs ?_ rfl ?_ rfl fun k hk s hs l => ?_
  · refine List.filter_congr fun k hk => ?_
    rw [Bool.eq_iff_iff, hkept hk]
    exact (List.mem_filter.trans (and_iff_right hk)).symm
  · cases hi : (allPairs fa fb).initial with
    | none => exact hi
    | some i =>
      have hkeep := (hkept (hall.initial_mem hi)).2 (hpairs.initial_mem hi)
      rw [Option.filter_some, if_pos hkeep]
      exact hi
  · refine (and_iff_left_of_imp fun hl => ?_).symm
    have hl' := hpairs.step_mem hk hs hl
    exact (hkept (List.mem_of_mem_filter hl')).2 hl'

end Pairs

/-- The labels of pairs of states have two characters at least, and are no letters. -/
theorem isLetter_label_pairs (hfa : fa.Named) (hfb : fb.Named) (describe : Label × Label → Label)
    (hdescribe : ∀ k ∈ (allPairs fa fb).states, (k.1 ++ k.2).length ≤ (describe k).length)
    {k : Label × Label} (hk : k ∈ (pairs fa fb).states) :
    ((pairs fa fb).label describe k).isLetter = false := by
  have hall : k ∈ (allPairs fa fb).states := List.mem_of_mem_filter hk
  obtain ⟨hp, hq⟩ := mem_states_allPairs.1 hall
  have hp := (hfa.label _ hp).length_pos
  have hq := (hfb.label _ hq).length_pos
  have hlabel : (describe k).length ≤ ((pairs fa fb).label describe k).length :=
    Machine.length_le_label hk
  have hdescribe := hdescribe k hall
  rw [String.length_append] at hdescribe
  exact Label.isLetter_eq_false (by omega)

/-- **The names of the pairs do not depend on the pairs that are not reached.** -/
theorem rename_pairs_eq (hfa : fa.WellFormed) (hfb : fb.WellFormed) (hdet : fa.Deterministic)
    (hna : fa.Named) (hnb : fb.Named) :
    ((allPairs fa fb).toAutomaton fun k => k.1 ++ k.2).removeUnreachable.rename =
      ((pairs fa fb).toAutomaton fun k => k.1 ++ k.2).rename := by
  have hpairs := lawful_pairs hfa hfb hdet
  let describe (k : Label × Label) : Label := k.1 ++ k.2
  have hlong : ∀ k ∈ (allPairs fa fb).states,
      (describe k).length ≤ ((allPairs fa fb).label describe k).length :=
    fun k hk => Machine.length_le_label hk
  have hall := fun k hk =>
    isLetter_label_pairs hna hnb ((allPairs fa fb).label describe) hlong (k := k) hk
  have hself := fun k hk =>
    isLetter_label_pairs hna hnb describe (fun k _ => Nat.le_refl _) (k := k) hk
  rw [← toAutomaton_pairs_eq hfa hfb hdet]
  exact hpairs.rename_toAutomaton_congr hall hself

/-- **The intersection in two collections is the running one.** -/
theorem WellFormed.split_intersection (hfa : fa.WellFormed) (hfb : fb.WellFormed)
    (hna : fa.Named) (hnb : fb.Named) :
    fa.split.intersection fb = (fa.intersection fb).map Automaton.split := by
  unfold SplitAutomaton.intersection Automaton.intersection
  rw [hfa.table_split]
  show (if bothDeterminized fa fb then _ else _) = _
  split
  · rename_i hboth
    have hdet := hfa.deterministic (Bool.and_eq_true_iff.1 hboth).1
    have hall := lawful_allPairs hfa hfb hdet
    have hwf := hall.wellFormed fun k => k.1 ++ k.2
    have hbuilt := hall.split_script fun k => k.1 ++ k.2
    dsimp only
    rw [hbuilt, removeUnreachable_withDeterminized, rename_withDeterminized,
      withDeterminized_withDeterminized, ← hwf.split_removeUnreachable,
      ← hwf.removeUnreachable.split_rename, rename_pairs_eq hfa hfb hdet hna hnb]
    exact congrArg Except.ok (withDeterminized_eq_self rfl)
  · rfl

end Automaton

end FiniteState
