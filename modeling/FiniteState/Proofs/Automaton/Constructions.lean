import FiniteState.Proofs.Automaton.Constructed
import FiniteState.Proofs.Automaton.Language
import FiniteState.Proofs.Construction
import FiniteState.Proofs.Regex.Annotations

/-!
# The construction loops

Determinization goes through sets of states, and the compilation of a regular expression
through sets of positions.  Both do so by a loop with a queue and a table of labels, in which
a set is entered under the list of its members.  The loops end, since there are finitely many
sets; they go through each set that words lead to once, in the order in which the running
definitions list these sets, and give them the same labels.

## Main definitions

* `Automaton.setLoop`, `Regex.PositionTable.positionLoop` — the two loops.

## Main results

* `Label.exists_primed_eq` — **the search for primes ends**, at the first label that is free.
* `Regex.PositionTable.describe_injective` — sets of positions have different descriptions.
* `Automaton.Obtainable.constructions_end` — **both loops end and go through each set once**.
-/

namespace FiniteState

/-! ### Primes -/

namespace Label

/-- The search adds primes for as long as the label is taken. -/
theorem exists_addPrimes_eq (taken : List Label) (fuel : ℕ) (l : Label) :
    ∃ i ≤ fuel, addPrimes taken fuel l = (· ++ "'")^[i] l ∧
      ∀ j < i, (· ++ "'")^[j] l ∈ taken := by
  induction fuel generalizing l with
  | zero => exact ⟨0, le_rfl, rfl, fun j hj => absurd hj (Nat.not_lt_zero j)⟩
  | succ fuel ih =>
    rw [addPrimes]
    split
    · rename_i htaken
      obtain ⟨i, hi, heq, hbefore⟩ := ih (l ++ "'")
      refine ⟨i + 1, Nat.succ_le_succ hi, heq, fun j hj => ?_⟩
      cases j with
      | zero => exact List.contains_iff_mem.1 htaken
      | succ j => exact hbefore j (Nat.lt_of_succ_lt_succ hj)
    · exact ⟨0, Nat.zero_le _, rfl, fun j hj => absurd hj (Nat.not_lt_zero j)⟩

/-- **The primes end**: some number of them, no more than there are labels taken, is the first
that leads to a label that is not taken. -/
theorem exists_primed_eq (taken : List Label) (l : Label) :
    ∃ i ≤ taken.length, primed taken l = (· ++ "'")^[i] l ∧ (· ++ "'")^[i] l ∉ taken ∧
      ∀ j < i, (· ++ "'")^[j] l ∈ taken := by
  obtain ⟨i, hi, heq, hbefore⟩ := exists_addPrimes_eq taken taken.length l
  exact ⟨i, hi, heq, heq ▸ primed_notMem taken l, hbefore⟩

/-- In what order labels were taken does not matter. -/
theorem primed_reverse (taken : List Label) (l : Label) :
    primed taken.reverse l = primed taken l := by
  have key (fuel : ℕ) (l : Label) : addPrimes taken.reverse fuel l = addPrimes taken fuel l := by
    induction fuel generalizing l with
    | zero => rfl
    | succ fuel ih => rw [addPrimes, addPrimes, List.contains_reverse, ih]
  rw [primed, primed, List.length_reverse, key]

end Label

namespace Construction

variable {κ : Type}

/-- Descriptions, with primes where they are taken. -/
theorem named_primed (describe : κ → Label) (keys : List κ) :
    named (fun taken k => Label.primed taken (describe k)) keys = Label.distinct describe keys := by
  have key (entries : List (κ × Label)) :
      keys.foldl (fun entries k =>
          entries ++ [(k, Label.primed (entries.map (·.2)) (describe k))]) entries =
        entries ++ Label.distinctFrom describe (entries.map (·.2)).reverse keys := by
    induction keys generalizing entries with
    | nil => exact (List.append_nil entries).symm
    | cons k keys ih =>
      rw [List.foldl_cons, ih, Label.distinctFrom, Label.primed_reverse, List.append_assoc,
        List.map_append, List.reverse_append]
      rfl
  exact key []

/-- Descriptions as they are. -/
theorem named_description (describe : κ → Label) (keys : List κ) :
    named (fun _ k => describe k) keys = keys.map fun k => (k, describe k) := by
  induction keys using List.reverseRecOn with
  | nil => rfl
  | append_singleton keys k ih => rw [named_concat, ih, List.map_append, List.map_singleton]

end Construction

namespace Machine

variable {κ : Type} [DecidableEq κ] {m : Machine κ} {U : List κ} {bound : ℕ}

/-- The states that are discovered are not left. -/
theorem successors_subset_discovered (hinitial : ∀ k, m.initial = some k → k ∈ U)
    (hstep : ∀ k ∈ U, ∀ s ∈ m.alphabet, ∀ l, m.step k s = some l → l ∈ U)
    (hlen : U.length ≤ bound) :
    ∀ k ∈ (m.discovered bound).states, m.successors k ⊆ (m.discovered bound).states := by
  intro k hk l hl
  obtain ⟨i, w, hi, hw⟩ := (mem_states_discovered hinitial hstep hlen).1 hk
  obtain ⟨s, hs, hl⟩ := mem_successors.1 hl
  exact (mem_states_discovered hinitial hstep hlen).2
    ⟨i, w ++ [s], hi, runFrom_concat_eq_some hw hs hl⟩

/-- There are no more of them than places they are among. -/
theorem length_states_discovered_le (hinitial : ∀ k, m.initial = some k → k ∈ U)
    (hstep : ∀ k ∈ U, ∀ s ∈ m.alphabet, ∀ l, m.step k s = some l → l ∈ U) :
    (m.discovered bound).states.length ≤ U.length := by
  have hrun (w : List Symbol) {k l : κ} (hk : k ∈ U) (hl : m.runFrom k w = some l) : l ∈ U := by
    induction w generalizing k with
    | nil => exact Option.some.inj hl ▸ hk
    | cons s w ih =>
      obtain ⟨hs, k', hk', hl⟩ := runFrom_cons_eq_some.1 hl
      exact ih (hstep k hk s hs k' hk') hl
  refine ((nodup_explore bound _).subperm fun k hk => ?_).length_le
  obtain ⟨i, w, hi, hw⟩ := exists_runFrom_of_mem_discovered hk
  exact hrun w (hinitial i hi) hw

end Machine

/-! ### Keys and descriptions -/

theorem LabelSet.toList_injective : Function.Injective LabelSet.toList :=
  fun S T hlists => LabelSet.ext fun l => by
    rw [← LabelSet.mem_toList, hlists, LabelSet.mem_toList]

theorem NatSet.toList_injective : Function.Injective NatSet.toList :=
  fun S T hlists => NatSet.ext fun i => by
    rw [← NatSet.mem_toList, hlists, NatSet.mem_toList]

namespace Regex.PositionTable

/-- **Sets of positions have different descriptions.** -/
theorem describe_injective : Function.Injective describe := by
  intro S T heq
  have hdigits (i : ℕ) : (toString i).toList ≠ [] ∧ ',' ∉ (toString i).toList := by
    refine ⟨Label.toList_toString_ne_nil i, fun hcomma => ?_⟩
    rw [Label.toList_toString] at hcomma
    exact absurd (Nat.isDigit_of_mem_toDigits (by decide) (by decide) hcomma) (by decide)
  have htext : [','].intercalate (S.toList.map fun i => (toString i).toList) =
      [','].intercalate (T.toList.map fun i => (toString i).toList) := by
    have := congrArg String.toList heq
    simpa [describe, String.toList_append, String.toList_intercalate, List.map_map,
      Function.comp_def] using this
  have hinj : Function.Injective fun i : ℕ => (toString i).toList :=
    fun i j => Label.toList_toString_inj
  refine NatSet.toList_injective (List.map_injective_iff.2 hinj ?_)
  refine List.eq_of_intercalate_eq ?_ ?_ htext <;> simpa using fun i _ => hdigits i

variable {e : Expr Symbol} {S T : NatSet} {w : List Symbol}

/-- Some position begins a word, be it that of the end marker. -/
theorem first_root_ne_empty (e : Expr Symbol) : (ofExpr e).root.facts.first ≠ ∅ := by
  obtain ⟨w, hw⟩ := e.number.exists_matches
  have hroot : (ofExpr e).root.Matches (w ++ [e.size]) := matches_root.2 hw
  intro hempty
  cases w with
  | nil => exact NatSet.notMem_empty e.size (hempty ▸ Expr.mem_first_of_matches hroot)
  | cons p w => exact NatSet.notMem_empty p (hempty ▸ Expr.mem_first_of_matches hroot)

theorem runFrom_machine_ne_empty (hS : S ≠ ∅) (hT : (ofExpr e).machine.runFrom S w = some T) :
    T ≠ ∅ := by
  induction w generalizing S with
  | nil => exact Option.some.inj hT ▸ hS
  | cons s w ih =>
    obtain ⟨-, S', hS', hT⟩ := Machine.runFrom_cons_eq_some.1 hT
    exact ih (step_eq_some.1 hS').2 hT

/-- **The states of the machine** are the sets that words lead to; each has a member. -/
theorem mem_states_machine : S ∈ (ofExpr e).machine.states ↔
    S ≠ ∅ ∧ ∃ w, (ofExpr e).machine.runFrom (ofExpr e).root.facts.first w = some S := by
  have hmem := Machine.mem_states_discovered (k := S) (fun _ => initial_machine_mem (e := e))
    (fun _ _ _ _ _ => step_machine_mem) (Nat.le_of_eq (NatSet.length_subsets _))
  refine hmem.trans ?_
  constructor
  · rintro ⟨i, w, hi, hw⟩
    obtain rfl := Option.some.inj hi
    exact ⟨runFrom_machine_ne_empty (first_root_ne_empty e) hw, w, hw⟩
  · rintro ⟨-, w, hw⟩
    exact ⟨_, w, rfl, hw⟩

end Regex.PositionTable

/-! ### The loops -/

/-- **The loop of determinization** after some turns.  Sets of states are entered under their
members in order; they are labelled with their members, and with primes where that is taken. -/
def Automaton.setLoop (fa : Automaton) (turns : ℕ) : Construction LabelSet (List Label) :=
  (Construction.turn LabelSet.toList (fun taken S => Label.primed taken S.describe)
      fa.powerset.successors)^[turns]
    (Construction.start LabelSet.toList (fun taken S => Label.primed taken S.describe)
      fa.powerset.initial.toList)

/-- **The loop of compilation** after some turns.  Sets of positions are entered under their
members in order, and labelled with their members. -/
def Regex.PositionTable.positionLoop (t : PositionTable) (turns : ℕ) :
    Construction NatSet (List ℕ) :=
  (Construction.turn NatSet.toList (fun _ S => describe S) t.machine.successors)^[turns]
    (Construction.start NatSet.toList (fun _ S => describe S) t.machine.initial.toList)

/-- The loop of determinization goes through the states of the powerset machine. -/
theorem Automaton.WellFormed.goesThrough_setLoop {fa : Automaton} (h : fa.WellFormed) :
    Construction.GoesThrough LabelSet.toList fa.setLoop
      (Label.distinct LabelSet.describe fa.powerset.states) := by
  have hlen : (LabelSet.subsets fa.states).length ≤ 1 <<< fa.rows.length := by
    rw [LabelSet.length_subsets, states, List.length_map]
  have hclosed := Machine.successors_subset_discovered (fun _ => h.initial_powerset_mem)
    (fun _ _ _ _ _ => h.step_powerset_mem) hlen
  rw [← Construction.named_primed]
  refine Construction.goesThrough LabelSet.toList_injective (fun keys _ => ?_) hclosed
  rw [Construction.named_primed]
  exact Label.nodup_map_snd_distinct _ keys

/-- The loop of compilation goes through the states of the machine over sets of positions. -/
theorem Regex.PositionTable.goesThrough_positionLoop (e : Expr Symbol) :
    Construction.GoesThrough NatSet.toList (ofExpr e).positionLoop
      ((ofExpr e).machine.states.map fun S => (S, describe S)) := by
  have hclosed := Machine.successors_subset_discovered (fun _ => initial_machine_mem (e := e))
    (fun _ _ _ _ _ => step_machine_mem) (Nat.le_of_eq (NatSet.length_subsets _))
  rw [← Construction.named_description]
  refine Construction.goesThrough NatSet.toList_injective (fun keys hkeys => ?_) hclosed
  rw [Construction.named_description, List.map_map]
  exact hkeys.map describe_injective

/-! ### Both loops -/

open Regex.PositionTable in
/-- **The construction loops end, and go through each set once.**  The loop of determinization
goes through the nonempty sets of states that words lead to, the loop of compilation through the
nonempty sets of positions that words lead to, and of both there are no more than there are sets.
Distinct sets get distinct labels: in the first loop by primes, of which the first number is taken
that leads to a label not taken yet, in the second because the descriptions of distinct sets are
distinct. -/
theorem Automaton.Obtainable.constructions_end {fa : Automaton} (h : fa.Obtainable)
    (e : Regex.Expr Symbol) :
    (Construction.GoesThrough LabelSet.toList fa.setLoop
        (Label.distinct LabelSet.describe fa.powerset.states) ∧
      (∀ S, S ∈ fa.powerset.states ↔ S ≠ ∅ ∧ ∃ w, fa.run w = S) ∧
      fa.powerset.states.length ≤ 1 <<< fa.states.length ∧
      ∀ taken l, ∃ i ≤ taken.length, Label.primed taken l = (· ++ "'")^[i] l ∧
        (· ++ "'")^[i] l ∉ taken ∧ ∀ j < i, (· ++ "'")^[j] l ∈ taken) ∧
    Construction.GoesThrough NatSet.toList (ofExpr e).positionLoop
        (Label.distinct describe (ofExpr e).machine.states) ∧
      (∀ S, S ∈ (ofExpr e).machine.states ↔
        S ≠ ∅ ∧ ∃ w, (ofExpr e).machine.runFrom (ofExpr e).root.facts.first w = some S) ∧
      (ofExpr e).machine.states.length ≤ 1 <<< (ofExpr e).size ∧
      Label.distinct describe (ofExpr e).machine.states =
        (ofExpr e).machine.states.map (fun S => (S, describe S)) ∧
      Function.Injective describe := by
  have hfa := h.wellFormed
  have hsets : fa.powerset.states.length ≤ 1 <<< fa.states.length := by
    rw [← LabelSet.length_subsets]
    exact Machine.length_states_discovered_le (fun _ => hfa.initial_powerset_mem)
      fun _ _ _ _ _ => hfa.step_powerset_mem
  have hpositions : (ofExpr e).machine.states.length ≤ 1 <<< (ofExpr e).size := by
    rw [← NatSet.length_subsets]
    exact Machine.length_states_discovered_le (fun _ => initial_machine_mem)
      fun _ _ _ _ _ => step_machine_mem
  have hdistinct : Label.distinct describe (ofExpr e).machine.states =
      (ofExpr e).machine.states.map fun S => (S, describe S) :=
    Label.distinct_of_nodup ((nodup_explore _ _).map describe_injective)
  refine ⟨⟨hfa.goesThrough_setLoop, fun S => hfa.mem_states_powerset, hsets,
    Label.exists_primed_eq⟩, ?_, fun S => mem_states_machine, hpositions, hdistinct,
    describe_injective⟩
  rw [hdistinct]
  exact goesThrough_positionLoop e

open Regex.PositionTable in
/-- Two sets of states have the same description, so the second of them gets a prime; two sets of
positions have not. -/
theorem Automaton.constructions_end_same_description :
    ∃ fa : Automaton, fa.Obtainable ∧
      (fa.setLoop 3).processed.map (·.2) = ["S", "AB", "AB'"] ∧
      (fa.setLoop 3).queue ≠ [] ∧ (fa.setLoop 4).queue = [] ∧
      ((ofExpr (.concatenation (.star (.letter 'a')) (.letter 'b'))).positionLoop 2).processed.map
        (·.2) = ["\x7b0,1\x7d", "\x7b2\x7d"] := by
  have h := (Obtainable.ofText "S -> aA | aB | b\nA -> a\nB -> a").edit (.addState "AB") rfl
  have h := h.edit (.updateTransition "S" 'b' "AB") rfl
  obtain ⟨⟨hsets, -⟩, hpositions, -⟩ :=
    h.constructions_end (.concatenation (.star (.letter 'a')) (.letter 'b'))
  refine ⟨_, h, ?_, mt (hsets.ended 3).1 (by decide +kernel), (hsets.ended 4).2 (by decide +kernel),
    ?_⟩
  · rw [hsets.taken]
    decide +kernel
  · rw [hpositions.taken]
    decide +kernel

end FiniteState
