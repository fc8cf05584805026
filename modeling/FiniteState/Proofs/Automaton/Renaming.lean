import FiniteState.Automaton.Rename
import FiniteState.Proofs.Automaton.Trim
import FiniteState.Proofs.Label.Fresh

/-!
# Renaming keeps the language

Other names for the states change no word, as long as no two states come to the
same name.  The pool sees to that: the names it hands out differ from one another
and from the letters that states keep.

## Main definitions

* `Automaton.newName` — the name of a state after a renaming from a pool.

## Main results

* `WellFormed.path_relabel` — a renaming that keeps the states apart moves the paths
  along.
* `WellFormed.injOn_newName` — **the names from a pool keep the states apart**.
* `WellFormed.renameWith`, `WellFormed.accepts_renameWith`,
  `WellFormed.accepts_rename` — renaming keeps the invariant and the language.
* `WellFormed.mem_finals_rename`, `WellFormed.mem_targets_rename` — what it makes of the
  marks and of the transitions.
-/

namespace FiniteState.Automaton

variable {fa : Automaton} {f : Label → Label} {p q r : Label} {w : List Symbol}

namespace WellFormed

/-! ### Injective renamings -/

section Relabel

variable (h : fa.WellFormed) (hinj : Set.InjOn f {q | q ∈ fa.states})

include h hinj

/-- **A renaming that keeps the states apart moves the paths along.** -/
theorem path_relabel (hp : p ∈ fa.states) :
    (fa.relabel f).Path (f p) w r ↔ ∃ q, fa.Path p w q ∧ f q = r := by
  constructor
  · intro hpath
    generalize hx : f p = x at hpath
    induction hpath generalizing p with
    | nil => exact ⟨p, .nil p, hx⟩
    | silent hstep _ ih =>
      subst hx
      obtain ⟨q, hq, rfl⟩ := (fa.mem_targets_relabel hinj hp).1 hstep
      obtain ⟨r, hpath, hr⟩ := ih (h.target_mem hq) rfl
      exact ⟨r, .silent hq hpath, hr⟩
    | read hs hstep _ ih =>
      subst hx
      obtain ⟨q, hq, rfl⟩ := (fa.mem_targets_relabel hinj hp).1 hstep
      obtain ⟨r, hpath, hr⟩ := ih (h.target_mem hq) rfl
      exact ⟨r, .read hs hq hpath, hr⟩
  · rintro ⟨q, hpath, rfl⟩
    refine hpath.map fun {q s r} hr => ?_
    have hq := mem_states_of_mem_targets _ hr
    exact (fa.mem_targets_relabel hinj hq).2 ⟨r, hr, rfl⟩

theorem acceptsFrom_relabel (hp : p ∈ fa.states) :
    (fa.relabel f).AcceptsFrom (f p) w ↔ fa.AcceptsFrom p w := by
  constructor
  · rintro ⟨r, hr, hpath⟩
    obtain ⟨q, hq, rfl⟩ := (h.path_relabel hinj hp).1 hpath
    rw [finals_relabel] at hr
    obtain ⟨q', hfinal, heq⟩ := List.mem_map.1 hr
    obtain rfl := hinj (h.final_mem hfinal) (hq.mem_states h hp) heq
    exact ⟨q', hfinal, hq⟩
  · rintro ⟨q, hq, hpath⟩
    exact ⟨f q, List.mem_map.2 ⟨q, hq, rfl⟩, (h.path_relabel hinj hp).2 ⟨q, hpath, rfl⟩⟩

theorem reached_relabel (hq : fa.Reached q) : (fa.relabel f).Reached (f q) := by
  obtain ⟨p, w, hp, hpath⟩ := hq
  refine ⟨f p, w, ?_, (h.path_relabel hinj (h.initial_mem hp)).2 ⟨q, hpath, rfl⟩⟩
  rw [initial_relabel, hp, Option.map_some]

theorem accepts_relabel : (fa.relabel f).accepts w = fa.accepts w := by
  rw [Bool.eq_iff_iff, (h.relabel hinj).accepts_iff, h.accepts_iff]
  simp only [initial_relabel, Option.map_eq_some_iff]
  constructor
  · intro hrenamed
    obtain ⟨_, ⟨p, hp, rfl⟩, haccepts⟩ := hrenamed
    exact ⟨p, hp, (h.acceptsFrom_relabel hinj (h.initial_mem hp)).1 haccepts⟩
  · rintro ⟨p, hp, haccepts⟩
    exact ⟨f p, ⟨p, hp, rfl⟩, (h.acceptsFrom_relabel hinj (h.initial_mem hp)).2 haccepts⟩

end Relabel

end WellFormed

/-! ### Names from a pool -/

/-- The name that a state takes from a pool. -/
def newName (fa : Automaton) (pool : LabelPool) (q : Label) : Label :=
  ((pool.names fa.states).1.lookup q).getD q

theorem renameWith_eq (fa : Automaton) (pool : LabelPool) :
    (fa.renameWith pool).1 = fa.relabel (fa.newName pool) := rfl

theorem rename_eq (fa : Automaton) : fa.rename = fa.relabel (fa.newName .full) :=
  renameWith_eq fa .full

theorem mem_states_rename : q ∈ fa.rename.states ↔ ∃ p ∈ fa.states, fa.newName .full p = q := by
  rw [rename_eq, states_relabel, List.mem_map]

theorem initial_rename (fa : Automaton) :
    fa.rename.initial = fa.initial.map (fa.newName .full) := by
  rw [rename_eq, initial_relabel]

theorem determinized_rename (fa : Automaton) : fa.rename.determinized = fa.determinized := by
  rw [rename_eq, determinized_relabel]

/-- The name of a state is one of those handed out. -/
theorem lookup_names (pool : LabelPool) (hq : q ∈ fa.states) :
    (pool.names fa.states).1.lookup q = some (fa.newName pool q) := by
  obtain ⟨n, hn⟩ := List.exists_lookup_eq_some (l := (pool.names fa.states).1) (k := q)
    (by rwa [LabelPool.map_fst_names])
  rw [newName, hn, Option.getD_some]

theorem mem_names (pool : LabelPool) (hq : q ∈ fa.states) :
    (q, fa.newName pool q) ∈ (pool.names fa.states).1 :=
  List.mem_of_lookup_eq_some (lookup_names pool hq)

/-- A new name from a pool was not in use. -/
theorem newName_notMem (pool : LabelPool) (hq : q ∈ fa.states) : fa.newName pool q ∉ pool.used :=
  (LabelPool.of_mem_names (mem_names pool hq)).1

namespace WellFormed

variable (h : fa.WellFormed) (pool : LabelPool)

include h

/-- **The names from a pool keep the states apart.** -/
theorem injOn_newName : Set.InjOn (fa.newName pool) {q | q ∈ fa.states} := by
  intro p hp q hq heq
  have hq' := lookup_names pool hq
  rw [← heq] at hq'
  exact List.eq_of_lookup_eq_some (LabelPool.nodup_map_snd_names h.states_nodup)
    (lookup_names pool hp) hq'

theorem renameWith : (fa.renameWith pool).1.WellFormed := h.relabel (h.injOn_newName pool)

theorem accepts_renameWith : (fa.renameWith pool).1.accepts w = fa.accepts w :=
  h.accepts_relabel (h.injOn_newName pool)

theorem rename : fa.rename.WellFormed := h.renameWith .full

theorem accepts_rename : fa.rename.accepts w = fa.accepts w := h.accepts_renameWith .full

/-! ### The renamed table -/

theorem mem_finals_rename (hq : q ∈ fa.states) :
    fa.newName .full q ∈ fa.rename.finals ↔ q ∈ fa.finals := by
  rw [rename_eq, finals_relabel, List.mem_map]
  constructor
  · rintro ⟨p, hp, heq⟩
    rwa [← h.injOn_newName .full (h.final_mem hp) hq heq]
  · exact fun hfinal => ⟨q, hfinal, rfl⟩

theorem mem_targets_rename (hp : p ∈ fa.states) (hq : q ∈ fa.states) {s : Symbol} :
    fa.newName .full q ∈ fa.rename.targets (fa.newName .full p) s ↔ q ∈ fa.targets p s := by
  rw [rename_eq, fa.mem_targets_relabel (h.injOn_newName .full) hp]
  constructor
  · rintro ⟨r, hr, heq⟩
    rwa [← h.injOn_newName .full (h.target_mem hr) hq heq]
  · exact fun hr => ⟨q, hr, rfl⟩

end WellFormed

end FiniteState.Automaton
