import FiniteState.Automaton.Run
import FiniteState.Proofs.Automaton.WellFormed
import FiniteState.Proofs.Traversal

/-!
# Paths and acceptance

A path of an automaton goes from state to state along transitions and reads a
word on the way; a transition on the marker of the empty word reads nothing.  The
library never looks at paths: it computes closures by exploration and reads a word
by a fold over sets of states.  This file shows that both come to the same, so
that all later arguments are about paths.

## Main definitions

* `Automaton.Path` — the paths, with the word read along them.
* `Automaton.AcceptsFrom` — the words read on a path from a state to an accepting
  one.

## Main results

* `WellFormed.mem_closure` — the closure of a state holds the ends of its paths
  that read nothing.
* `WellFormed.mem_runFrom` — the fold over a word holds the ends of the paths that
  read the word.
* `WellFormed.accepts_iff` — **a word is accepted iff it is read on a path from the
  initial state to an accepting one**.
-/

namespace FiniteState.Automaton

open Relation

/-- The word is read on a path from one state to another. -/
inductive Path (fa : Automaton) : Label → List Symbol → Label → Prop
  /-- The path without transitions. -/
  | nil (q : Label) : Path fa q [] q
  /-- A transition without reading comes first. -/
  | silent {p q r : Label} {w : List Symbol} :
    q ∈ fa.targets p Symbol.epsilon → Path fa q w r → Path fa p w r
  /-- A transition that reads the first symbol comes first. -/
  | read {p q r : Label} {s : Symbol} {w : List Symbol} :
    s ≠ Symbol.epsilon → q ∈ fa.targets p s → Path fa q w r → Path fa p (s :: w) r

/-- A path from the state to an accepting one reads the word. -/
def AcceptsFrom (fa : Automaton) (q : Label) (w : List Symbol) : Prop :=
  ∃ f ∈ fa.finals, fa.Path q w f

variable {fa fb : Automaton} {p q r : Label} {s : Symbol} {u v w : List Symbol}

/-! ### Paths -/

namespace Path

theorem append (hu : fa.Path p u q) (hv : fa.Path q v r) : fa.Path p (u ++ v) r := by
  induction hu with
  | nil => exact hv
  | silent hstep _ ih => exact .silent hstep (ih hv)
  | read hs hstep _ ih => exact .read hs hstep (ih hv)

/-- A path that reads two words one after the other passes a state in between. -/
theorem split (h : fa.Path p (u ++ v) r) : ∃ q, fa.Path p u q ∧ fa.Path q v r := by
  generalize hw : u ++ v = w at h
  induction h generalizing u with
  | nil q =>
    obtain ⟨rfl, rfl⟩ := List.append_eq_nil_iff.1 hw
    exact ⟨q, .nil q, .nil q⟩
  | silent hstep _ ih =>
    obtain ⟨q, hu, hv⟩ := ih hw
    exact ⟨q, .silent hstep hu, hv⟩
  | @read p q r s w hs hstep htail ih =>
    cases u with
    | nil =>
      rw [List.nil_append] at hw
      subst hw
      exact ⟨p, .nil p, .read hs hstep htail⟩
    | cons t u =>
      obtain ⟨rfl, hrest⟩ := List.cons.inj hw
      obtain ⟨q', hu, hv⟩ := ih hrest
      exact ⟨q', .read hs hstep hu, hv⟩

/-- Before the first symbol is read, some transitions may read nothing. -/
theorem cons_iff : fa.Path p (s :: w) r ↔
    s ≠ Symbol.epsilon ∧ ∃ q q', fa.Path p [] q ∧ q' ∈ fa.targets q s ∧ fa.Path q' w r := by
  constructor
  · intro h
    generalize hx : s :: w = x at h
    induction h with
    | nil => cases hx
    | silent hstep _ ih =>
      obtain ⟨hs, q, q', hq, hq', htail⟩ := ih hx
      exact ⟨hs, q, q', .silent hstep hq, hq', htail⟩
    | @read p q r t x hs hstep htail =>
      obtain ⟨rfl, rfl⟩ := List.cons.inj hx
      exact ⟨hs, p, q, .nil p, hstep, htail⟩
  · intro hpath
    obtain ⟨hs, q, q', hq, hq', htail⟩ := hpath
    exact hq.append (.read hs hq' htail)

/-- A map of states that carries transitions to transitions carries paths to
paths. -/
theorem map {f : Label → Label}
    (hf : ∀ {q s r}, r ∈ fa.targets q s → f r ∈ fb.targets (f q) s)
    (h : fa.Path p w r) : fb.Path (f p) w (f r) := by
  induction h with
  | nil q => exact .nil (f q)
  | silent hstep _ ih => exact .silent (hf hstep) ih
  | read hs hstep _ ih => exact .read hs (hf hstep) ih

theorem mono (hsub : ∀ {q s r}, r ∈ fa.targets q s → r ∈ fb.targets q s) (h : fa.Path p w r) :
    fb.Path p w r :=
  h.map (f := id) hsub

/-- A path that starts in a state ends in one. -/
theorem mem_states (h : fa.Path p w r) (hfa : fa.WellFormed) (hp : p ∈ fa.states) :
    r ∈ fa.states := by
  induction h with
  | nil => exact hp
  | silent hstep _ ih => exact ih (hfa.target_mem hstep)
  | read _ hstep _ ih => exact ih (hfa.target_mem hstep)

/-- A symbol that is read is read by a transition, and is not the marker. -/
theorem exists_target_of_mem (h : fa.Path p w r) (hs : s ∈ w) :
    s ≠ Symbol.epsilon ∧ ∃ q q', q' ∈ fa.targets q s := by
  induction h with
  | nil => exact absurd hs List.not_mem_nil
  | silent _ _ ih => exact ih hs
  | read hread hstep _ ih =>
    rcases List.mem_cons.1 hs with rfl | hs
    · exact ⟨hread, _, _, hstep⟩
    · exact ih hs

/-- Where no state moves without reading, the empty word leads nowhere else. -/
theorem eq_of_nil (hsilent : ∀ {q r}, r ∉ fa.targets q Symbol.epsilon) (h : fa.Path p [] r) :
    p = r := by
  cases h with
  | nil => rfl
  | silent hstep _ => exact absurd hstep hsilent

theorem cons_iff_of_not_silent (hsilent : ∀ {q r}, r ∉ fa.targets q Symbol.epsilon) :
    fa.Path p (s :: w) r ↔ ∃ q ∈ fa.targets p s, fa.Path q w r := by
  constructor
  · intro h
    obtain ⟨-, q, q', hq, hq', htail⟩ := cons_iff.1 h
    obtain rfl := hq.eq_of_nil hsilent
    exact ⟨q', hq', htail⟩
  · rintro ⟨q, hq, htail⟩
    refine .read ?_ hq htail
    rintro rfl
    exact hsilent hq

/-- In a deterministic automaton a word leads to one state at most. -/
theorem unique (hdet : fa.Deterministic) (hq : fa.Path p w q) (hr : fa.Path p w r) : q = r := by
  induction w generalizing p with
  | nil => rw [← hq.eq_of_nil hdet.not_silent, ← hr.eq_of_nil hdet.not_silent]
  | cons s w ih =>
    obtain ⟨p', hp', hq⟩ := (cons_iff_of_not_silent hdet.not_silent).1 hq
    obtain ⟨p'', hp'', hr⟩ := (cons_iff_of_not_silent hdet.not_silent).1 hr
    obtain rfl := hdet.target_unique hp' hp''
    exact ih hq hr

/-- The paths that read nothing are the chains of transitions that read nothing. -/
theorem nil_iff : fa.Path p [] r ↔
    ReflTransGen (Leads fun q => (fa.targets q Symbol.epsilon).toList) p r := by
  constructor
  · intro h
    generalize hw : ([] : List Symbol) = w at h
    induction h with
    | nil => exact .refl
    | silent hstep _ ih => exact .head hstep (ih hw)
    | read => cases hw
  · intro h
    induction h using ReflTransGen.head_induction_on with
    | refl => exact .nil r
    | head hstep _ ih => exact .silent hstep ih

end Path

/-! ### Words accepted from a state -/

theorem acceptsFrom_nil_of_mem (hq : q ∈ fa.finals) : fa.AcceptsFrom q [] := ⟨q, hq, .nil q⟩

theorem acceptsFrom_append : fa.AcceptsFrom p (u ++ v) ↔
    ∃ q, fa.Path p u q ∧ fa.AcceptsFrom q v := by
  constructor
  · rintro ⟨f, hf, h⟩
    obtain ⟨q, hu, hv⟩ := h.split
    exact ⟨q, hu, f, hf, hv⟩
  · rintro ⟨q, hu, f, hf, hv⟩
    exact ⟨f, hf, hu.append hv⟩

section Reading

variable (hsilent : ∀ {q r}, r ∉ fa.targets q Symbol.epsilon)

include hsilent

theorem acceptsFrom_nil_iff : fa.AcceptsFrom q [] ↔ q ∈ fa.finals := by
  constructor
  · rintro ⟨f, hf, h⟩
    rwa [h.eq_of_nil hsilent]
  · exact acceptsFrom_nil_of_mem

theorem acceptsFrom_cons_iff : fa.AcceptsFrom q (s :: w) ↔
    ∃ r ∈ fa.targets q s, fa.AcceptsFrom r w := by
  constructor
  · rintro ⟨f, hf, h⟩
    obtain ⟨r, hr, htail⟩ := (Path.cons_iff_of_not_silent hsilent).1 h
    exact ⟨r, hr, f, hf, htail⟩
  · rintro ⟨r, hr, f, hf, htail⟩
    exact ⟨f, hf, (Path.cons_iff_of_not_silent hsilent).2 ⟨r, hr, htail⟩⟩

end Reading

/-- After a word has been read, the words that a deterministic automaton accepts are those
that complete it. -/
theorem acceptsFrom_append_iff (hdet : fa.Deterministic) (hu : fa.Path p u q) :
    fa.AcceptsFrom p (u ++ v) ↔ fa.AcceptsFrom q v := by
  rw [acceptsFrom_append]
  constructor
  · rintro ⟨q', hu', hv⟩
    rwa [hu.unique hdet hu']
  · exact fun hv => ⟨q, hu, hv⟩

/-! ### Closures and runs -/

theorem meetsFinal_iff {S : LabelSet} : fa.meetsFinal S = true ↔ ∃ f ∈ S, f ∈ fa.finals := by
  simp only [meetsFinal, List.any_eq_true, LabelSet.mem_toList, isFinal_iff]

namespace WellFormed

variable (h : fa.WellFormed)

include h

/-- **The closure of a state** holds the ends of its paths that read nothing. -/
theorem mem_closure (hq : q ∈ fa.states) : r ∈ fa.closure q ↔ fa.Path q [] r := by
  have hplaces : [q] ⊆ fa.states := by simpa using hq
  have hclosed : ∀ p ∈ fa.states, (fa.targets p Symbol.epsilon).toList ⊆ fa.states :=
    fun p _ r hr => h.target_mem hr
  have hlen : fa.states.length ≤ fa.rows.length := by simp [states]
  rw [closure, if_pos (fa.hasState_iff.2 hq), LabelSet.mem_ofList,
    mem_explore_iff hplaces hclosed hlen, Path.nil_iff]
  simp

theorem mem_start : r ∈ fa.start ↔ ∃ p, fa.initial = some p ∧ fa.Path p [] r := by
  unfold start
  cases hp : fa.initial with
  | none => simp
  | some p => simp [h.mem_closure (h.initial_mem hp)]

/-- A symbol is read by a transition, and then any may follow that read nothing. -/
theorem mem_step {S : LabelSet} : r ∈ fa.step S s ↔
    ∃ p ∈ S, ∃ q ∈ fa.targets p s, fa.Path q [] r := by
  simp only [step, LabelSet.mem_unions, LabelSet.mem_toList]
  constructor
  · rintro ⟨p, hp, q, hq, hr⟩
    exact ⟨p, hp, q, hq, (h.mem_closure (h.target_mem hq)).1 hr⟩
  · rintro ⟨p, hp, q, hq, hr⟩
    exact ⟨p, hp, q, hq, (h.mem_closure (h.target_mem hq)).2 hr⟩

/-- The states before the first symbol are closed under transitions without reading. -/
theorem closed_start : ∀ p ∈ fa.start, ∀ q, fa.Path p [] q → q ∈ fa.start := by
  intro p hp q hpq
  obtain ⟨p₀, hp₀, hpath⟩ := h.mem_start.1 hp
  exact h.mem_start.2 ⟨p₀, hp₀, hpath.append hpq⟩

/-- So are the states after one more symbol. -/
theorem closed_step {S : LabelSet} :
    ∀ p ∈ fa.step S s, ∀ q, fa.Path p [] q → q ∈ fa.step S s := by
  intro p hp q hpq
  obtain ⟨p₀, hp₀, p₁, hp₁, hpath⟩ := h.mem_step.1 hp
  exact h.mem_step.2 ⟨p₀, hp₀, p₁, hp₁, hpath.append hpq⟩

/-- **The fold over a word**, from a set of states that is closed under transitions
without reading, holds the ends of the paths that read the word. -/
theorem mem_runFrom {S : LabelSet} (hS : ∀ p ∈ S, ∀ q, fa.Path p [] q → q ∈ S) :
    r ∈ fa.runFrom S w ↔ ∃ p ∈ S, fa.Path p w r := by
  induction w generalizing S with
  | nil =>
    rw [runFrom_nil]
    exact ⟨fun hr => ⟨r, hr, .nil r⟩, fun ⟨p, hp, hpath⟩ => hS p hp r hpath⟩
  | cons s w ih =>
    rw [runFrom_cons, read]
    split
    · -- the marker is not read, neither by the fold nor on a path
      rename_i hs
      rw [ih fun p hp => absurd hp (LabelSet.notMem_empty p)]
      constructor
      · rintro ⟨p, hp, -⟩
        exact absurd hp (LabelSet.notMem_empty p)
      · rintro ⟨p, -, hpath⟩
        exact absurd (Symbol.isEpsilon_iff.1 hs) (Path.cons_iff.1 hpath).1
    · rename_i hs
      rw [ih h.closed_step]
      constructor
      · rintro ⟨q, hq, htail⟩
        obtain ⟨p, hp, q', hq', hpath⟩ := h.mem_step.1 hq
        exact ⟨p, hp, .read (fun he => hs (Symbol.isEpsilon_iff.2 he)) hq' (hpath.append htail)⟩
      · rintro ⟨p, hp, hpath⟩
        obtain ⟨-, q, q', hq, hq', htail⟩ := Path.cons_iff.1 hpath
        exact ⟨q', h.mem_step.2 ⟨q, hS p hp q hq, q', hq', .nil q'⟩, htail⟩

theorem mem_run : r ∈ fa.run w ↔ ∃ p, fa.initial = some p ∧ fa.Path p w r := by
  rw [run, h.mem_runFrom h.closed_start]
  constructor
  · rintro ⟨q, hq, hpath⟩
    obtain ⟨p, hp, hpq⟩ := h.mem_start.1 hq
    exact ⟨p, hp, hpq.append hpath⟩
  · rintro ⟨p, hp, hpath⟩
    exact ⟨p, h.mem_start.2 ⟨p, hp, .nil p⟩, hpath⟩

/-- **A word is accepted iff it is read on a path from the initial state to an
accepting one.** -/
theorem accepts_iff : fa.accepts w = true ↔ ∃ p, fa.initial = some p ∧ fa.AcceptsFrom p w := by
  simp only [accepts, meetsFinal_iff, h.mem_run, AcceptsFrom]
  constructor
  · intro hmeets
    obtain ⟨f, ⟨p, hp, hpath⟩, hf⟩ := hmeets
    exact ⟨p, hp, f, hf, hpath⟩
  · rintro ⟨p, hp, f, hf, hpath⟩
    exact ⟨f, ⟨p, hp, hpath⟩, hf⟩

end WellFormed

end FiniteState.Automaton
