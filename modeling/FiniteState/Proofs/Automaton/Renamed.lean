import FiniteState.Proofs.Automaton.Renaming
import FiniteState.Proofs.Automaton.Restriction
import FiniteState.Proofs.Label.Stable

/-!
# Renamed tables

A renaming that keeps the states apart yields the same table under other names: the states in
the same order, the same symbols and marks, and cells that hold the new names of the same
targets.  Some states have the name already that they would get.  A state that is named by a
free letter keeps it; after a renaming from the full pool this holds of all states, those with
numbered names included, so that a second renaming leaves the table as it is.

## Main definitions

* `Automaton.Renamed` — one table is another one with other names for its states.

## Main results

* `renamed_relabel` — **a renaming that keeps the states apart only changes the names**.
* `WellFormed.newName_eq_self` — a free letter stays.
* `WellFormed.relabel_eq_self` — a renaming that fixes the states changes nothing.
* `WellFormed.rename_rename` — **renaming twice is renaming once**.
-/

namespace FiniteState

theorem LabelSet.map_eq_self {f : Label → Label} {S : LabelSet} (h : ∀ l ∈ S, f l = l) :
    S.map f = S := by
  refine ext fun l => mem_map.trans ?_
  constructor
  · rintro ⟨m, hm, rfl⟩
    rwa [h m hm]
  · exact fun hl => ⟨l, hl, h l hl⟩

namespace Automaton

variable {fa : Automaton} {f : Label → Label} {pool : LabelPool} {q n : Label}

/-- **One table is another one with other names for its states**, which are told apart by the
new names as well. -/
structure Renamed (fa : Automaton) (f : Label → Label) (fb : Automaton) : Prop where
  /-- No two states come to the same name. -/
  injOn : Set.InjOn f {q | q ∈ fa.states}
  /-- The states stand in the same order. -/
  states : fb.states = fa.states.map f
  /-- The symbols are the same. -/
  alphabet : fb.alphabet = fa.alphabet
  /-- A cell holds the names of its targets, and a text that was rejected. -/
  cells : ∀ q ∈ fa.states, ∀ s, fb.cell? (f q) s = (fa.cell? q s).map (Cell.mapTargets (.map f))
  /-- The initial states correspond. -/
  initial : fb.initial = fa.initial.map f
  /-- The accepting states correspond, in the same order. -/
  finals : fb.finals = fa.finals.map f
  /-- The flag is the same. -/
  determinized : fb.determinized = fa.determinized

/-- **A renaming that keeps the states apart only changes the names.** -/
theorem renamed_relabel (hinj : Set.InjOn f {q | q ∈ fa.states}) :
    fa.Renamed f (fa.relabel f) where
  injOn := hinj
  states := states_relabel fa f
  alphabet := rfl
  cells _ hq _ := fa.cell?_relabel hinj hq
  initial := rfl
  finals := rfl
  determinized := rfl

namespace WellFormed

variable (h : fa.WellFormed)

include h

/-- A renaming that fixes the states changes nothing. -/
theorem relabel_eq_self (hfix : ∀ q ∈ fa.states, f q = q) : fa.relabel f = fa := by
  have hrow : ∀ e ∈ fa.rows, (f e.1, Row.mapTargets e.2 (.map f)) = e := by
    intro e he
    have htargets : Row.mapTargets e.2 (.map f) = Row.mapTargets e.2 fun S => S :=
      Row.mapTargets_congr fun x hx =>
        LabelSet.map_eq_self fun r hr => hfix r (h.target_mem_of_mem_rows he hx hr)
    rw [htargets, Row.mapTargets_id, hfix e.1 (List.mem_map.2 ⟨e, he, rfl⟩)]
  have hrows : (fa.relabel f).rows = fa.rows :=
    (List.map_congr_left hrow).trans (List.map_id _)
  have hinitial : fa.initial.map f = fa.initial := by
    cases hp : fa.initial with
    | none => rfl
    | some p => rw [Option.map_some, hfix p (h.initial_mem hp)]
  have hfinals : fa.finals.map f = fa.finals :=
    (List.map_congr_left fun q hq => hfix q (h.final_mem hq)).trans (List.map_id _)
  exact ext rfl hrows hinitial hfinals rfl

/-! ### Names that stay -/

/-- The name of a state is the one that the pool pairs with it. -/
theorem newName_eq (hn : (q, n) ∈ (pool.names fa.states).1) : fa.newName pool q = n := by
  have hnd : ((pool.names fa.states).1.map Prod.fst).Nodup := by
    rw [LabelPool.map_fst_names]
    exact h.states_nodup
  rw [newName, List.lookup_eq_some_of_mem hnd hn, Option.getD_some]

/-- **A state that is named by a free letter keeps its name.** -/
theorem newName_eq_self (hq : q ∈ fa.states) (hletter : q.isLetter = true) (hfree : q ∉ pool.used) :
    fa.newName pool q = q :=
  h.newName_eq (LabelPool.mem_nameAll_of_mem hq
    (LabelPool.mem_reserveAll_iff.2 ⟨hq, hletter, hfree⟩))

theorem states_rename : fa.rename.states = (LabelPool.full.names fa.states).1.map Prod.snd := by
  rw [rename_eq, states_relabel]
  conv_lhs => rw [← LabelPool.map_fst_names LabelPool.full fa.states]
  rw [List.map_map]
  exact List.map_congr_left fun e he => h.newName_eq he

/-- The states of a renamed automaton have the names that they would get. -/
theorem newName_rename (hq : q ∈ fa.rename.states) : fa.rename.newName .full q = q := by
  refine h.rename.newName_eq ?_
  rw [h.states_rename] at hq ⊢
  -- in the second pass every name is paired with itself
  obtain ⟨e, he, rfl⟩ := List.mem_map.1 hq
  rw [LabelPool.names_names]
  exact List.mem_map.2 ⟨e, he, rfl⟩

/-- **Renaming twice is renaming once.** -/
theorem rename_rename : fa.rename.rename = fa.rename := by
  rw [rename_eq fa.rename]
  exact h.rename.relabel_eq_self fun _ => h.newName_rename

end WellFormed

end Automaton

end FiniteState
