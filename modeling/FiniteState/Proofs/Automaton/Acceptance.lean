import FiniteState.Proofs.Automaton.Language

/-!
# Acceptance by runs

A word is read symbol by symbol by a set of states, closed under transitions without reading
after each symbol.  A user thinks of one run instead: a chain of transitions from the initial
state to an accepting one, which carry symbols of the alphabet or the marker of the empty word,
and which spell the word when the markers are left out.  Both come to the same, for every
automaton that can be obtained.

A symbol that no transition can read leaves no states, and from then on there are none, so the
reading may stop at such a symbol.  Whether any word is accepted is asked in two more ways: by a
search forwards from the initial state, and by a look at what is left when all states are
removed that do not reach an accepting one.  All three agree.

## Main definitions

* `Symbol.withoutMarkers` — the symbols of a run that are read.
* `Automaton.Trace` — the runs, with the symbols of all their transitions.

## Main results

* `path_iff_exists_trace` — the paths are the runs without their markers.
* `accepts_append_of_run_eq_empty` — where no states are left, no continuation is accepted.
* `Obtainable.accepts_iff_trace` — **a word is accepted iff a run spells it**, and only words
  over the alphabet are.
* `Obtainable.emptiness` — **the three ways to ask for an accepted word agree**.
-/

namespace FiniteState

/-- The symbols of a run that are read: all but the markers of the empty word. -/
def Symbol.withoutMarkers (labels : List Symbol) : List Symbol :=
  labels.filter fun s => !Symbol.isEpsilon s

theorem Symbol.withoutMarkers_cons_epsilon (labels : List Symbol) :
    withoutMarkers (epsilon :: labels) = withoutMarkers labels := rfl

theorem Symbol.withoutMarkers_cons_of_ne {s : Symbol} (hs : s ≠ epsilon) (labels : List Symbol) :
    withoutMarkers (s :: labels) = s :: withoutMarkers labels :=
  List.filter_cons_of_pos (by simpa [isEpsilon] using hs)

namespace Automaton

/-- **A run**: a chain of transitions from one state to another, with the symbol of each; the
marker of the empty word is one of them. -/
inductive Trace (fa : Automaton) : Label → List Symbol → Label → Prop
  /-- The run without transitions. -/
  | nil (q : Label) : Trace fa q [] q
  /-- A transition comes first. -/
  | cons {p q r : Label} {s : Symbol} {labels : List Symbol} :
    q ∈ fa.targets p s → Trace fa q labels r → Trace fa p (s :: labels) r

variable {fa : Automaton} {p q r : Label} {s : Symbol} {u v w labels : List Symbol} {S : LabelSet}

/-! ### Runs and paths -/

theorem Trace.path (h : fa.Trace p labels r) : fa.Path p (Symbol.withoutMarkers labels) r := by
  induction h with
  | nil q => exact .nil q
  | @cons p q r s labels hstep _ ih =>
    by_cases hs : s = Symbol.epsilon
    · subst hs
      rw [Symbol.withoutMarkers_cons_epsilon]
      exact .silent hstep ih
    · rw [Symbol.withoutMarkers_cons_of_ne hs]
      exact .read hs hstep ih

theorem Path.exists_trace (h : fa.Path p w r) :
    ∃ labels, fa.Trace p labels r ∧ Symbol.withoutMarkers labels = w := by
  induction h with
  | nil q => exact ⟨[], .nil q, rfl⟩
  | silent hstep _ ih =>
    obtain ⟨labels, htrace, hlabels⟩ := ih
    refine ⟨Symbol.epsilon :: labels, .cons hstep htrace, ?_⟩
    rw [Symbol.withoutMarkers_cons_epsilon, hlabels]
  | @read p q r s w hs hstep _ ih =>
    obtain ⟨labels, htrace, hlabels⟩ := ih
    refine ⟨s :: labels, .cons hstep htrace, ?_⟩
    rw [Symbol.withoutMarkers_cons_of_ne hs, hlabels]

/-- The paths are the runs without their markers. -/
theorem path_iff_exists_trace :
    fa.Path p w r ↔ ∃ labels, fa.Trace p labels r ∧ Symbol.withoutMarkers labels = w := by
  constructor
  · exact Path.exists_trace
  · rintro ⟨labels, htrace, rfl⟩
    exact htrace.path

/-! ### Where the reading may stop -/

/-- Where no states are left, no continuation is accepted. -/
theorem accepts_append_of_run_eq_empty (h : fa.run u = ∅) (v : List Symbol) :
    fa.accepts (u ++ v) = false := by
  have hrun : fa.run (u ++ v) = ∅ := by
    rw [run, runFrom_append]
    exact (congrArg (fa.runFrom · v) h).trans (runFrom_empty fa v)
  rw [accepts, hrun]
  rfl

namespace WellFormed

variable (h : fa.WellFormed)

include h

/-- The marker and the symbols outside of the alphabet leave no states. -/
theorem read_eq_empty (hs : s = Symbol.epsilon ∨ s ∉ fa.alphabet) : fa.read S s = ∅ := by
  rw [read]
  split
  · rfl
  · rename_i hread
    exact h.step_of_notMem (hs.resolve_left fun he => hread (Symbol.isEpsilon_iff.2 he))

theorem accepts_eq_false (hs : s ∈ w) (hunread : s = Symbol.epsilon ∨ s ∉ fa.alphabet) :
    fa.accepts w = false := by
  obtain ⟨u, v, rfl⟩ := List.append_of_mem hs
  have hrun : fa.run (u ++ [s]) = ∅ := by
    rw [run, runFrom_append, runFrom_cons, runFrom_nil, h.read_eq_empty hunread]
  rw [List.append_cons]
  exact accepts_append_of_run_eq_empty hrun v

/-! ### Whether a word is accepted -/

/-- The forward search finds an accepting state iff a word is accepted. -/
theorem isEmpty_eq_false_iff : fa.isEmpty = false ↔ ∃ w, fa.accepts w = true := by
  rw [← Bool.not_eq_true, h.isEmpty_iff]
  simp only [not_forall, Bool.not_eq_false]

/-- When the useless states are removed, an initial and an accepting state remain iff a word is
accepted. -/
theorem isValid_iff : fa.isValid = true ↔ ∃ w, fa.accepts w = true := by
  simp only [isValid, Bool.and_eq_true, Option.isSome_iff_exists, Bool.not_eq_true',
    List.isEmpty_eq_false_iff_exists_mem]
  constructor
  · rintro ⟨⟨p, hp⟩, -⟩
    -- the initial state was not removed, so it reaches an accepting one
    obtain ⟨hp, w, hw⟩ := h.initial_removeUseless_eq_some.1 hp
    exact ⟨w, h.accepts_iff.2 ⟨p, hp, hw⟩⟩
  · rintro ⟨w, hw⟩
    obtain ⟨p, hp, f, hf, hpath⟩ := h.accepts_iff.1 hw
    exact ⟨⟨p, h.initial_removeUseless_eq_some.2 ⟨hp, w, f, hf, hpath⟩⟩,
      f, h.mem_finals_removeUseless.2 hf⟩

end WellFormed

/-! ### The automata that can be obtained -/

/-- **A word is accepted iff it is what a run from the initial state to an accepting one spells**
when its markers are left out.  A word that holds the marker or a symbol outside of the alphabet
is not accepted. -/
theorem Obtainable.accepts_iff_trace (h : fa.Obtainable) (w : List Symbol) :
    (fa.accepts w = true ↔ ∃ p labels f, fa.initial = some p ∧ fa.Trace p labels f ∧
        f ∈ fa.finals ∧ Symbol.withoutMarkers labels = w) ∧
      ∀ s ∈ w, s = Symbol.epsilon ∨ s ∉ fa.alphabet → fa.accepts w = false := by
  refine ⟨?_, fun s hs hunread => h.wellFormed.accepts_eq_false hs hunread⟩
  simp only [h.wellFormed.accepts_iff, AcceptsFrom, path_iff_exists_trace]
  constructor
  · rintro ⟨p, hp, f, hf, labels, htrace, hlabels⟩
    exact ⟨p, labels, f, hp, htrace, hf, hlabels⟩
  · rintro ⟨p, labels, f, hp, htrace, hf, hlabels⟩
    exact ⟨p, hp, f, hf, labels, htrace, hlabels⟩

/-- The only state of the automaton of `a*` moves to itself without reading, after an edit. -/
theorem accepts_iff_trace_silent :
    ∃ fa : Automaton, fa.Obtainable ∧ fa.alphabet = ['a', '&'] ∧ fa.accepts ['a'] = true ∧
      fa.accepts ['a', '&'] = false ∧ fa.accepts ['b'] = false := by
  have hparse : Regex.parse ['a', '*'] = .ok (.star (.letter 'a')) := rfl
  have hcolumn := (obtainable_automaton hparse).edit (.addSymbol '&') rfl
  have hedited := hcolumn.edit (.updateTransition "A" '&' "A") rfl
  refine ⟨_, hedited, by decide, (hedited.accepts_iff_trace _).1.2 ?_,
    (hedited.accepts_iff_trace _).2 '&' (by simp) (.inl rfl),
    (hedited.accepts_iff_trace _).2 'b' (by simp) (.inr (by decide))⟩
  exact ⟨"A", ['&', 'a', '&'], "A", by decide, .cons (q := "A") (by decide)
    (.cons (q := "A") (by decide) (.cons (by decide) (.nil _))), by decide, by decide⟩

/-- **The three ways to ask for an accepted word agree**: what is left after trimming, the search
from the initial state, and the reading of words. -/
theorem Obtainable.emptiness (h : fa.Obtainable) :
    (fa.isValid = true ↔ fa.isEmpty = false) ∧
      (fa.isEmpty = false ↔ ∃ w, fa.accepts w = true) :=
  ⟨h.wellFormed.isValid_iff.trans h.wellFormed.isEmpty_eq_false_iff.symm,
    h.wellFormed.isEmpty_eq_false_iff⟩

/-- The automaton of `a` loses its only transition.  Its accepting state is left, but the initial
state does not reach it any more. -/
theorem emptiness_disconnected :
    ∃ fa : Automaton, fa.Obtainable ∧ fa.initial = some "A" ∧ fa.finals = ["B"] ∧
      fa.isValid = false ∧ ¬ ∃ w, fa.accepts w = true := by
  have hparse : Regex.parse ['a'] = .ok (.letter 'a') := rfl
  have hedited := (obtainable_automaton hparse).edit (.updateTransition "A" 'a' "-") rfl
  obtain ⟨hvalid, hempty⟩ := hedited.emptiness
  refine ⟨_, hedited, by decide, by decide, ?_, ?_⟩
  · rw [← Bool.not_eq_true, hvalid]
    decide
  · rw [← hempty]
    decide

end Automaton

end FiniteState
