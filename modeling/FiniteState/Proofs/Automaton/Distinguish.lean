import Mathlib.Data.Finset.Card
import Mathlib.Data.Fintype.Prod
import FiniteState.Automaton.Distinguish

/-!
# The table holds exactly the distinguishable pairs

Marks spread from pairs that one symbol tells apart to the pairs that lead to them.
At all times the marked pairs are distinguishable, and a marked pair that is not
waiting has passed its mark on.  A pair waits when it is marked, so every turn uses
up a pair for good and there are turns for all pairs; then no pair is waiting and
the marks cannot spread any further.

## Main definitions

* `NumberedMachine.Distinguishable` — some word leads exactly one of two states to
  an accepting one.
* `Filling.Valid` — the invariant of the table that is being filled.
* `Filling.work` — the number of turns that can still be taken.

## Main results

* `NumberedMachine.marked_distinguish` — **the table holds exactly the
  distinguishable pairs**.
* `NumberedMachine.representative_eq_iff` — two states have the same
  representative iff they are not distinguishable.
-/

namespace FiniteState

variable {n : ℕ} {m : NumberedMachine n} {u v x : Fin n} {step : Vector (Fin n) n}

namespace NumberedMachine

/-- Some word leads exactly one of the two states to an accepting one. -/
inductive Distinguishable (m : NumberedMachine n) : Fin n → Fin n → Prop
  /-- The empty word does. -/
  | now {u v : Fin n} : m.accepting.get u ≠ m.accepting.get v → Distinguishable m u v
  /-- A word does that begins with some symbol. -/
  | later {u v : Fin n} {step : Vector (Fin n) n} :
    step ∈ m.steps → Distinguishable m (step.get u) (step.get v) → Distinguishable m u v

namespace Distinguishable

theorem irrefl (u : Fin n) : ¬ m.Distinguishable u u := by
  -- the induction needs two states that may differ
  have hne : ∀ {v w : Fin n}, m.Distinguishable v w → v ≠ w := by
    intro v w h
    induction h with
    | now hne =>
      rintro rfl
      exact hne rfl
    | later _ _ ih =>
      rintro rfl
      exact ih rfl
  exact fun h => hne h rfl

theorem symm (h : m.Distinguishable u v) : m.Distinguishable v u := by
  induction h with
  | now hne => exact .now hne.symm
  | later hstep _ ih => exact .later hstep ih

/-- A word that tells two states apart tells every state apart from one of them. -/
theorem left_or_right (h : m.Distinguishable u v) (x : Fin n) :
    m.Distinguishable u x ∨ m.Distinguishable x v := by
  induction h generalizing x with
  | @now u v hne =>
    by_cases hux : m.accepting.get u = m.accepting.get x
    · right
      rw [hux] at hne
      exact .now hne
    · exact .inl (.now hux)
  | @later u v step hstep _ ih =>
    -- the symbol leads the third state somewhere, too
    rcases ih (step.get x) with h | h
    · exact .inl (.later hstep h)
    · exact .inr (.later hstep h)

end Distinguishable

theorem mem_sourcesOf {p : Fin n} : u ∈ (sourcesOf step).get p ↔ step.get u = p := by
  have hget : (sourcesOf step).get p = (List.finRange n).filter fun v => step.get v = p :=
    Vector.getElem_ofFn p.isLt
  simp [hget]

/-- The pairs that lead to a pair. -/
theorem mem_pairsTo {x y : Fin n × Fin n} : y ∈ pairsTo m.sources x ↔
    ∃ step ∈ m.steps, step.get y.1 = x.1 ∧ step.get y.2 = x.2 := by
  obtain ⟨p, q⟩ := x
  obtain ⟨u, v⟩ := y
  simp only [pairsTo, sources, List.flatMap_map, List.mem_flatMap, List.mem_map, Prod.mk.injEq]
  constructor
  · intro hpair
    obtain ⟨step, hstep, u', hu, v', hv, rfl, rfl⟩ := hpair
    exact ⟨step, hstep, mem_sourcesOf.1 hu, mem_sourcesOf.1 hv⟩
  · rintro ⟨step, hstep, hu, hv⟩
    exact ⟨step, hstep, u, mem_sourcesOf.2 hu, v, mem_sourcesOf.2 hv, rfl, rfl⟩

end NumberedMachine

/-! ### Marking -/

namespace Filling

open NumberedMachine

variable {f : Filling n} {pairs : List (Fin n × Fin n)} {x y : Fin n × Fin n}

/-- The pair is marked in the table. -/
def Marked (f : Filling n) (x : Fin n × Fin n) : Prop := f.marks.marked x.1 x.2 = true

theorem mark_of_marked (h : f.Marked x) : f.mark x = f := if_pos h

theorem mark_of_not_marked (h : ¬ f.Marked x) :
    f.mark x = ⟨f.marks.mark x.1 x.2, x :: f.waiting⟩ := if_neg h

theorem marked_mark : (f.mark x).Marked y ↔ y = x ∨ f.Marked y := by
  by_cases hx : f.Marked x
  · rw [mark_of_marked hx]
    exact ⟨.inr, fun h => h.elim (fun heq => heq ▸ hx) id⟩
  · rw [mark_of_not_marked hx, Marked, Marks.marked_mark, Bool.or_eq_true, decide_eq_true_eq,
      Prod.ext_iff]
    exact or_congr_left ⟨fun h => ⟨h.1.symm, h.2.symm⟩, fun h => ⟨h.1.symm, h.2.symm⟩⟩

theorem mem_waiting_mark : y ∈ (f.mark x).waiting ↔ y ∈ f.waiting ∨ y = x ∧ ¬ f.Marked x := by
  by_cases hx : f.Marked x
  · rw [mark_of_marked hx]
    simp [hx]
  · rw [mark_of_not_marked hx, List.mem_cons, or_comm]
    simp [hx]

theorem marked_foldl_mark :
    (pairs.foldl mark f).Marked y ↔ y ∈ pairs ∨ f.Marked y := by
  induction pairs generalizing f with
  | nil => simp
  | cons x pairs ih =>
    rw [List.foldl_cons, ih, marked_mark, List.mem_cons]
    tauto

theorem mem_waiting_foldl_mark_of_mem (h : y ∈ f.waiting) :
    y ∈ (pairs.foldl mark f).waiting := by
  induction pairs generalizing f with
  | nil => exact h
  | cons x pairs ih => exact ih (mem_waiting_mark.2 (.inl h))

theorem of_mem_waiting_foldl_mark (h : y ∈ (pairs.foldl mark f).waiting) :
    y ∈ f.waiting ∨ y ∈ pairs := by
  induction pairs generalizing f with
  | nil => exact .inl h
  | cons x pairs ih =>
    rcases ih h with h | h
    · rcases mem_waiting_mark.1 h with h | ⟨rfl, -⟩
      · exact .inl h
      · exact .inr List.mem_cons_self
    · exact .inr (List.mem_cons_of_mem _ h)

/-- What is newly marked is waiting. -/
theorem mem_waiting_of_newly_marked (h : (pairs.foldl mark f).Marked y) (hnew : ¬ f.Marked y) :
    y ∈ (pairs.foldl mark f).waiting := by
  induction pairs generalizing f with
  | nil => exact absurd h hnew
  | cons x pairs ih =>
    by_cases hx : (f.mark x).Marked y
    · obtain rfl := (marked_mark.1 hx).resolve_right hnew
      show y ∈ (pairs.foldl mark (f.mark y)).waiting
      exact mem_waiting_foldl_mark_of_mem (mem_waiting_mark.2 (.inr ⟨rfl, hnew⟩))
    · exact ih h hx

/-! ### The number of turns -/

/-- The pairs without a mark. -/
def unmarked (f : Filling n) : Finset (Fin n × Fin n) :=
  Finset.univ.filter fun x => f.marks.marked x.1 x.2 = false

/-- The number of turns that can still be taken: a pair is waiting, or it can still
be marked. -/
def work (f : Filling n) : ℕ := f.unmarked.card + f.waiting.length

theorem mem_unmarked : x ∈ f.unmarked ↔ ¬ f.Marked x := by
  simp [unmarked, Marked]

theorem unmarked_mark (f : Filling n) (x : Fin n × Fin n) :
    (f.mark x).unmarked = f.unmarked.erase x := by
  ext y
  rw [mem_unmarked, marked_mark, Finset.mem_erase, mem_unmarked, not_or]

theorem work_mark (f : Filling n) (x : Fin n × Fin n) : (f.mark x).work = f.work := by
  by_cases hx : f.Marked x
  · rw [mark_of_marked hx]
  · have hpos : 0 < f.unmarked.card := Finset.card_pos.2 ⟨x, mem_unmarked.2 hx⟩
    have hwaiting : (f.mark x).waiting.length = f.waiting.length + 1 := by
      rw [mark_of_not_marked hx, List.length_cons]
    rw [work, work, unmarked_mark, Finset.card_erase_of_mem (mem_unmarked.2 hx), hwaiting]
    omega

theorem work_foldl_mark (f : Filling n) (pairs : List (Fin n × Fin n)) :
    (pairs.foldl mark f).work = f.work := by
  induction pairs generalizing f with
  | nil => rfl
  | cons x pairs ih => rw [List.foldl_cons, ih, work_mark]

theorem work_start : (start : Filling n).work = n * n := by
  simp [work, unmarked, start]

/-! ### The invariant -/

/-- **The invariant of the table.**  Marks are right, the pairs that the empty word
tells apart are marked, and only waiting pairs still have to pass their mark on. -/
structure Valid (m : NumberedMachine n) (f : Filling n) : Prop where
  /-- Only distinguishable pairs are marked. -/
  sound : ∀ x, f.Marked x → m.Distinguishable x.1 x.2
  /-- The pairs that the empty word tells apart are marked. -/
  seeded : ∀ x : Fin n × Fin n, m.accepting.get x.1 ≠ m.accepting.get x.2 → f.Marked x
  /-- Only marked pairs are waiting. -/
  waiting_marked : ∀ x ∈ f.waiting, f.Marked x
  /-- A marked pair that is not waiting has passed its mark on. -/
  passed : ∀ x, f.Marked x → x ∉ f.waiting → ∀ y ∈ pairsTo m.sources x, f.Marked y

/-- A turn: the first waiting pair passes its mark on. -/
theorem Valid.turn {marks : Marks n} {waiting : List (Fin n × Fin n)}
    (h : Valid m ⟨marks, x :: waiting⟩) :
    Valid m ((pairsTo m.sources x).foldl mark ⟨marks, waiting⟩) where
  sound y hy := by
    -- what is newly marked leads to the pair by some symbol
    rcases marked_foldl_mark.1 hy with hy | hy
    · obtain ⟨step, hstep, hu, hv⟩ := mem_pairsTo.1 hy
      refine .later hstep ?_
      rw [hu, hv]
      exact h.sound x (h.waiting_marked x List.mem_cons_self)
    · exact h.sound y hy
  seeded y hy := marked_foldl_mark.2 (.inr (h.seeded y hy))
  waiting_marked y hy := by
    rw [marked_foldl_mark]
    rcases of_mem_waiting_foldl_mark hy with hy | hy
    · exact .inr (h.waiting_marked y (List.mem_cons_of_mem _ hy))
    · exact .inl hy
  passed y hy hwait z hz := by
    -- a new mark is waiting, so the mark is an old one or that of the pair itself
    by_cases hold : (⟨marks, waiting⟩ : Filling n).Marked y
    · rw [marked_foldl_mark]
      by_cases hyx : y = x
      · exact .inl (hyx ▸ hz)
      · refine .inr (h.passed y hold (fun hmem => ?_) z hz)
        rcases List.mem_cons.1 hmem with heq | hmem
        · exact hyx heq
        · exact hwait (mem_waiting_foldl_mark_of_mem hmem)
    · exact absurd (mem_waiting_of_newly_marked hy hold) hwait

/-- When no pair is waiting, every distinguishable pair is marked. -/
theorem Valid.complete {f : Filling n} (h : Valid m f) (hdone : f.waiting = [])
    (huv : m.Distinguishable u v) : f.Marked (u, v) := by
  -- along the word backwards, each mark has been passed on
  induction huv with
  | now hne => exact h.seeded (_, _) hne
  | later hstep _ ih =>
    refine h.passed _ ih ?_ _ (mem_pairsTo.2 ⟨_, hstep, rfl, rfl⟩)
    rw [hdone]
    exact List.not_mem_nil

end Filling

namespace NumberedMachine

open Filling

/-! ### The start -/

/-- The pairs that the empty word tells apart. -/
def opposedPairs (m : NumberedMachine n) : List (Fin n × Fin n) :=
  (List.finRange n).flatMap fun u => (m.opposed u).map fun v => (u, v)

theorem seeded_eq (m : NumberedMachine n) :
    m.seeded = m.opposedPairs.foldl Filling.mark .start := by
  rw [opposedPairs, List.foldl_flatMap]
  simp only [List.foldl_map]
  rfl

theorem mem_opposedPairs {x : Fin n × Fin n} :
    x ∈ m.opposedPairs ↔ m.accepting.get x.1 ≠ m.accepting.get x.2 := by
  obtain ⟨u, v⟩ := x
  have hopposed : v ∈ m.opposed u ↔ m.accepting.get u ≠ m.accepting.get v := by
    rw [opposed, List.mem_filter, bne_iff_ne]
    exact and_iff_right (List.mem_finRange v)
  rw [← hopposed]
  simp [opposedPairs]

theorem marked_seeded {x : Fin n × Fin n} :
    m.seeded.Marked x ↔ m.accepting.get x.1 ≠ m.accepting.get x.2 := by
  rw [seeded_eq, marked_foldl_mark, mem_opposedPairs]
  simp [Filling.Marked, start]

theorem valid_seeded (m : NumberedMachine n) : m.seeded.Valid m where
  sound _ hx := .now (marked_seeded.1 hx)
  seeded _ hx := marked_seeded.2 hx
  waiting_marked x hx := by
    rw [seeded_eq] at hx ⊢
    rw [marked_foldl_mark]
    exact (of_mem_waiting_foldl_mark hx).elim (fun h => absurd h List.not_mem_nil) .inl
  passed x hx hwait := by
    rw [seeded_eq] at hx hwait
    exact absurd (mem_waiting_of_newly_marked hx (by simp [Filling.Marked, start])) hwait

/-! ### The table -/

/-- With as many turns as there is work, the marks spread as far as they go. -/
theorem marked_spread {f : Filling n} (h : f.Valid m) {turns : ℕ} (hturns : f.work ≤ turns) :
    (spread m.sources turns f).marked u v = true ↔ m.Distinguishable u v := by
  induction turns generalizing f with
  | zero =>
    -- no work is left, so nothing is waiting
    have hdone : f.waiting = [] := List.eq_nil_of_length_eq_zero (by rw [work] at hturns; omega)
    exact ⟨h.sound (u, v), h.complete hdone⟩
  | succ turns ih =>
    obtain ⟨marks, waiting⟩ := f
    cases waiting with
    | nil => exact ⟨h.sound (u, v), h.complete rfl⟩
    | cons x waiting =>
      -- the turn takes a pair off the list, and marking does not change the work
      refine ih h.turn ?_
      have hwork : (⟨marks, x :: waiting⟩ : Filling n).work =
          (⟨marks, waiting⟩ : Filling n).work + 1 := rfl
      rw [work_foldl_mark]
      omega

/-- **The table holds exactly the distinguishable pairs.** -/
theorem marked_distinguish (m : NumberedMachine n) (u v : Fin n) :
    m.distinguish.marked u v = true ↔ m.Distinguishable u v := by
  refine marked_spread m.valid_seeded ?_
  rw [seeded_eq, work_foldl_mark, work_start]

/-! ### Representatives -/

theorem find?_representative (m : NumberedMachine n) (u : Fin n) :
    ∃ v, (List.finRange n).find? (fun v => !m.distinguish.marked v u) = some v ∧
      m.distinguish.representative u = v ∧ ¬ m.Distinguishable v u := by
  have hsome : ((List.finRange n).find? fun v => !m.distinguish.marked v u).isSome = true := by
    refine List.find?_isSome.2 ⟨u, List.mem_finRange u, ?_⟩
    rw [Bool.not_eq_true', ← Bool.not_eq_true, marked_distinguish]
    exact Distinguishable.irrefl u
  obtain ⟨v, hv⟩ := Option.isSome_iff_exists.1 hsome
  refine ⟨v, hv, by rw [Marks.representative, hv, Option.getD_some], ?_⟩
  have := List.find?_some hv
  rwa [Bool.not_eq_true', ← Bool.not_eq_true, marked_distinguish] at this

theorem not_distinguishable_representative (m : NumberedMachine n) (u : Fin n) :
    ¬ m.Distinguishable (m.distinguish.representative u) u := by
  obtain ⟨v, -, rfl, hv⟩ := m.find?_representative u
  exact hv

/-- **Two states have the same representative iff they are not distinguishable.** -/
theorem representative_eq_iff :
    m.distinguish.representative u = m.distinguish.representative v ↔
      ¬ m.Distinguishable u v := by
  constructor
  · intro heq h
    -- the common representative would be told apart from one of the two
    rcases h.left_or_right (m.distinguish.representative u) with h | h
    · exact m.not_distinguishable_representative u h.symm
    · rw [heq] at h
      exact m.not_distinguishable_representative v h
  · intro h
    -- the same states are marked against either, so the same search is made
    have hsame : ∀ x, m.distinguish.marked x u = m.distinguish.marked x v := by
      intro x
      rw [Bool.eq_iff_iff, marked_distinguish, marked_distinguish]
      constructor
      · exact fun hx => (hx.left_or_right v).resolve_right fun hvu => h hvu.symm
      · exact fun hx => (hx.left_or_right u).resolve_right h
    obtain ⟨x, hx, rfl, -⟩ := m.find?_representative u
    obtain ⟨y, hy, rfl, -⟩ := m.find?_representative v
    simp only [hsame] at hx
    exact Option.some.inj (hx.symm.trans hy)

theorem get_representatives (t : Marks n) (u : Fin n) :
    t.representatives.get u = t.representative u :=
  Vector.getElem_ofFn u.isLt

end NumberedMachine

end FiniteState
