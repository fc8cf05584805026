import FiniteState.Proofs.Automaton.Acceptance

/-!
# What is accepted after a deletion

A state is deleted with every reference to it, and a symbol with its column.  The runs that
are left are those that did without: a run that never visits the state uses no row and no
target that goes, and a run without transitions on the symbol uses no cell that goes.  All
other runs break off, also those that would come back to where they left, so a word is still
accepted exactly when one of its accepting runs did without what is deleted.

The runs of `Automaton.Trace` list their symbols.  Here they list the states that they visit,
too, so that both kinds of deletion are statements about one run.

## Main definitions

* `Automaton.Route` — the runs, with the symbols and the states along them.
* `Automaton.AcceptingRun` — the runs that accept a word.

## Main results

* `trace_iff_exists_route` — the routes are the runs.
* `WellFormed.accepts_iff_exists_run` — a word is accepted iff a run accepts it.
* `acceptingRun_keepStates_iff`, `acceptingRun_keepSymbols_iff` — **the runs of a restricted
  table are the runs that stay within it**.
* `Obtainable.deletion` — **a deletion takes the runs away that use what is deleted, and no
  others**.
-/

namespace FiniteState.Automaton

/-- **A run, with the symbols of its transitions and the states that it visits**; the first
state and the last one are visited. -/
inductive Route (fa : Automaton) : Label → List Symbol → List Label → Label → Prop
  /-- The run without transitions visits one state. -/
  | nil (q : Label) : Route fa q [] [q] q
  /-- A transition comes first. -/
  | cons {p q r : Label} {s : Symbol} {labels : List Symbol} {visited : List Label} :
    q ∈ fa.targets p s → Route fa q labels visited r →
      Route fa p (s :: labels) (p :: visited) r

/-- **The run accepts the word**: it leads from the initial state to an accepting one and
spells the word when its markers are left out. -/
def AcceptingRun (fa : Automaton) (w labels : List Symbol) (visited : List Label) : Prop :=
  ∃ p f, fa.initial = some p ∧ fa.Route p labels visited f ∧ f ∈ fa.finals ∧
    Symbol.withoutMarkers labels = w

variable {fa : Automaton} {p q r : Label} {s : Symbol} {w labels : List Symbol}
  {visited : List Label}

/-! ### Routes and runs -/

namespace Route

theorem start_mem (h : fa.Route p labels visited r) : p ∈ visited := by
  cases h with
  | nil => exact List.mem_singleton.2 rfl
  | cons => exact List.mem_cons_self

theorem end_mem (h : fa.Route p labels visited r) : r ∈ visited := by
  induction h with
  | nil => exact List.mem_singleton.2 rfl
  | cons _ _ ih => exact List.mem_cons_of_mem _ ih

theorem trace (h : fa.Route p labels visited r) : fa.Trace p labels r := by
  induction h with
  | nil q => exact .nil q
  | cons hstep _ ih => exact .cons hstep ih

end Route

theorem Trace.exists_route (h : fa.Trace p labels r) : ∃ visited, fa.Route p labels visited r := by
  induction h with
  | nil q => exact ⟨[q], .nil q⟩
  | @cons p q r s labels hstep _ ih =>
    obtain ⟨visited, hroute⟩ := ih
    exact ⟨p :: visited, .cons hstep hroute⟩

/-- The routes are the runs. -/
theorem trace_iff_exists_route : fa.Trace p labels r ↔ ∃ visited, fa.Route p labels visited r :=
  ⟨Trace.exists_route, fun ⟨_, hroute⟩ => hroute.trace⟩

/-- A word is accepted iff a run accepts it. -/
theorem WellFormed.accepts_iff_exists_run (h : fa.WellFormed) :
    fa.accepts w = true ↔ ∃ labels visited, fa.AcceptingRun w labels visited := by
  rw [h.accepts_iff]
  constructor
  · rintro ⟨p, hp, f, hf, hpath⟩
    obtain ⟨labels, htrace, hlabels⟩ := path_iff_exists_trace.1 hpath
    obtain ⟨visited, hroute⟩ := trace_iff_exists_route.1 htrace
    exact ⟨labels, visited, p, f, hp, hroute, hf, hlabels⟩
  · rintro ⟨labels, visited, p, f, hp, hroute, hf, hlabels⟩
    exact ⟨p, hp, f, hf, path_iff_exists_trace.2 ⟨labels, hroute.trace, hlabels⟩⟩

/-! ### Runs that stay within a restriction -/

/-- From a state that is left, the runs that are left visit only states that are left. -/
theorem route_keepStates_iff {k : Label → Bool} (hp : k p = true) :
    (fa.keepStates k).Route p labels visited r ↔
      fa.Route p labels visited r ∧ ∀ q ∈ visited, k q = true := by
  constructor
  · intro h
    induction h with
    | nil q => exact ⟨.nil q, by simpa using hp⟩
    | cons hstep _ ih =>
      obtain ⟨-, hq, hstep⟩ := (mem_targets_keepStates fa).1 hstep
      obtain ⟨hroute, hvisited⟩ := ih hq
      exact ⟨.cons hstep hroute, List.forall_mem_cons.2 ⟨hp, hvisited⟩⟩
  · rintro ⟨h, hvisited⟩
    induction h with
    | nil q => exact .nil q
    | cons hstep hroute ih =>
      obtain ⟨-, hvisited⟩ := List.forall_mem_cons.1 hvisited
      have hq := hvisited _ hroute.start_mem
      exact .cons ((mem_targets_keepStates fa).2 ⟨hp, hq, hstep⟩) (ih hq hvisited)

/-- The runs that are left use only symbols that are left. -/
theorem route_keepSymbols_iff {k : Symbol → Bool} :
    (fa.keepSymbols k).Route p labels visited r ↔
      fa.Route p labels visited r ∧ ∀ s ∈ labels, k s = true := by
  constructor
  · intro h
    induction h with
    | nil q => exact ⟨.nil q, by simp⟩
    | cons hstep _ ih =>
      obtain ⟨hs, hstep⟩ := (mem_targets_keepSymbols fa).1 hstep
      exact ⟨.cons hstep ih.1, List.forall_mem_cons.2 ⟨hs, ih.2⟩⟩
  · rintro ⟨h, hlabels⟩
    induction h with
    | nil q => exact .nil q
    | cons hstep _ ih =>
      obtain ⟨hs, hlabels⟩ := List.forall_mem_cons.1 hlabels
      exact .cons ((mem_targets_keepSymbols fa).2 ⟨hs, hstep⟩) (ih hlabels)

/-- **Restricted to some states, a table has the accepting runs that visit only these.** -/
theorem acceptingRun_keepStates_iff {k : Label → Bool} :
    (fa.keepStates k).AcceptingRun w labels visited ↔
      fa.AcceptingRun w labels visited ∧ ∀ q ∈ visited, k q = true := by
  constructor
  · rintro ⟨p, f, hp, hroute, hf, hlabels⟩
    obtain ⟨hp, hkept⟩ := Option.filter_eq_some_iff.1 hp
    obtain ⟨hroute, hvisited⟩ := (route_keepStates_iff hkept).1 hroute
    exact ⟨⟨p, f, hp, hroute, List.mem_of_mem_filter hf, hlabels⟩, hvisited⟩
  · rintro ⟨⟨p, f, hp, hroute, hf, hlabels⟩, hvisited⟩
    -- the marks are kept, as both ends of the run are visited
    have hkept := hvisited p hroute.start_mem
    have hf := List.mem_filter.2 ⟨hf, hvisited f hroute.end_mem⟩
    exact ⟨p, f, Option.filter_eq_some_iff.2 ⟨hp, hkept⟩,
      (route_keepStates_iff hkept).2 ⟨hroute, hvisited⟩, hf, hlabels⟩

/-- **Restricted to some symbols, a table has the accepting runs that use only these.** -/
theorem acceptingRun_keepSymbols_iff {k : Symbol → Bool} :
    (fa.keepSymbols k).AcceptingRun w labels visited ↔
      fa.AcceptingRun w labels visited ∧ ∀ s ∈ labels, k s = true := by
  constructor
  · rintro ⟨p, f, hp, hroute, hf, hword⟩
    obtain ⟨hroute, hlabels⟩ := route_keepSymbols_iff.1 hroute
    exact ⟨⟨p, f, hp, hroute, hf, hword⟩, hlabels⟩
  · rintro ⟨⟨p, f, hp, hroute, hf, hword⟩, hlabels⟩
    exact ⟨p, f, hp, route_keepSymbols_iff.2 ⟨hroute, hlabels⟩, hf, hword⟩

namespace WellFormed

variable (h : fa.WellFormed)

include h

theorem accepts_deleteState_iff : (fa.deleteState q).accepts w = true ↔
    ∃ labels visited, fa.AcceptingRun w labels visited ∧ q ∉ visited := by
  rw [deleteState, (h.keepStates _).accepts_iff_exists_run]
  simp only [acceptingRun_keepStates_iff, bne_iff_ne, ne_eq, List.forall_mem_ne']

theorem accepts_deleteSymbol_iff : (fa.deleteSymbol s).accepts w = true ↔
    ∃ labels visited, fa.AcceptingRun w labels visited ∧ s ∉ labels := by
  rw [deleteSymbol, (h.keepSymbols _).accepts_iff_exists_run]
  simp only [acceptingRun_keepSymbols_iff, bne_iff_ne, ne_eq, List.forall_mem_ne']

end WellFormed

/-! ### Deletions -/

/-- **A deletion takes the runs away that use what is deleted, and no others.**  When a state
is deleted, a word is accepted iff a run accepted it before that never visits the state.  When
a symbol is deleted, a word is accepted iff a run accepted it before that has no transition on
the symbol; if the symbol is the marker, these are the transitions without reading. -/
theorem Obtainable.deletion (h : fa.Obtainable) :
    (∀ w, fa.accepts w = true ↔ ∃ labels visited, fa.AcceptingRun w labels visited) ∧
      (∀ q ∈ fa.states, fa.apply (.deleteState q) = ⟨.ok true, fa.deleteState q⟩ ∧
        ∀ w, (fa.deleteState q).accepts w = true ↔
          ∃ labels visited, fa.AcceptingRun w labels visited ∧ q ∉ visited) ∧
      ∀ s ∈ fa.alphabet, fa.apply (.deleteSymbol s) = ⟨.ok true, fa.deleteSymbol s⟩ ∧
        ∀ w, (fa.deleteSymbol s).accepts w = true ↔
          ∃ labels visited, fa.AcceptingRun w labels visited ∧ s ∉ labels := by
  refine ⟨fun w => h.wellFormed.accepts_iff_exists_run, fun q hq => ⟨?_, fun w => ?_⟩,
    fun s hs => ⟨?_, fun w => ?_⟩⟩
  · exact if_pos (fa.hasState_iff.2 hq)
  · exact h.wellFormed.accepts_deleteState_iff
  · exact if_pos (fa.hasSymbol_iff.2 hs)
  · exact h.wellFormed.accepts_deleteSymbol_iff

/-- Two states lead to each other without reading, and the initial state leads to both on the
same symbol.  Without the first of them a word is accepted by way of the second, and without
the marker as well; a word that needs both of them is lost in either case. -/
theorem deletion_silent_cycle :
    ∃ fa : Automaton, fa.Obtainable ∧ fa.targets "A" '&' = .singleton "B" ∧
      fa.targets "B" '&' = .singleton "A" ∧ fa.accepts ['a', 'b', 'c'] = true ∧
      (fa.deleteState "A").accepts ['a', 'c'] = true ∧
      (fa.deleteState "A").accepts ['a', 'b', 'c'] = false ∧
      (fa.deleteSymbol '&').accepts ['a', 'c'] = true ∧
      (fa.deleteSymbol '&').accepts ['a', 'b', 'c'] = false := by
  have h := (Obtainable.ofText "S -> aA | aB\nA -> bA\nB -> c").edit (.addSymbol '&') rfl
  have h := h.edit (.updateTransition "A" '&' "B") rfl
  have h := h.edit (.updateTransition "B" '&' "A") rfl
  refine ⟨_, h, by decide +kernel, by decide +kernel, by decide +kernel, ?_, by decide +kernel, ?_,
    by decide +kernel⟩
  · refine ((h.deletion.2.1 "A" (by decide)).2 _).2 ⟨['a', 'c'], ["S", "B", "$"], ?_, by decide⟩
    exact ⟨"S", "$", by decide, .cons (q := "B") (by decide) (.cons (by decide) (.nil _)),
      by decide, rfl⟩
  · refine ((h.deletion.2.2 '&' (by decide)).2 _).2 ⟨['a', 'c'], ["S", "B", "$"], ?_, by decide⟩
    exact ⟨"S", "$", by decide, .cons (q := "B") (by decide) (.cons (by decide) (.nil _)),
      by decide, rfl⟩

end FiniteState.Automaton
