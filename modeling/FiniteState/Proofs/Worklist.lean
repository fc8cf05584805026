import Mathlib.Data.Prod.Lex
import Mathlib.Logic.Function.Iterate
import FiniteState.Proofs.Traversal

/-!
# Worklists

A traversal that keeps the places to look at in one list, with repetitions.  A place taken
from the list is dropped when it was visited before; otherwise it is visited, and those of its
successors that are not visited yet are put on the list.  Whether the list is a stack or a
queue, and whether the graph has cycles or not, the list runs empty, and the places visited
are then those that can be reached.

## Main definitions

* `Worklist`, `Worklist.turn` — the two lists of a traversal, and one turn of its loop.
* `Worklist.Ends` — the loop ends, with the places visited.
* `Worklist.Valid` — the invariant of the loop.

## Main results

* `Worklist.Valid.turn` — **a turn keeps the invariant**.
* `Worklist.exists_ends` — **every traversal of a finite graph ends**, and has then visited
  the places that can be reached, each of them once.
-/

namespace FiniteState

open Relation

variable {α : Type}

/-! ### The loop -/

/-- On which end of the list new places are put: the one they are taken from, or the other. -/
inductive Discipline
  /-- The place that was put last is taken first. -/
  | stack
  /-- The place that was put first is taken first. -/
  | queue
deriving DecidableEq, Repr

/-- The list after some places were put on it, one after the other. -/
def Discipline.put : Discipline → List α → List α → List α
  | .stack, fresh, pending => fresh.reverse ++ pending
  | .queue, fresh, pending => pending ++ fresh

theorem Discipline.mem_put {d : Discipline} {fresh pending : List α} {y : α} :
    y ∈ d.put fresh pending ↔ y ∈ fresh ∨ y ∈ pending := by
  cases d <;> simp [Discipline.put, or_comm]

/-- The places that were visited, and those that are still to be looked at. -/
structure Worklist (α : Type) where
  /-- The places visited, the last one first. -/
  visited : List α
  /-- The places to look at, in the order in which they are taken. -/
  pending : List α
deriving DecidableEq, Repr

namespace Worklist

variable [DecidableEq α]

/-- One turn of the loop: a place is taken and, unless it was visited before, visited.  Its
successors that were not visited are put on the list, more than once if they come up more than
once. -/
def turn (d : Discipline) (next : α → List α) : Worklist α → Worklist α
  | ⟨visited, []⟩ => ⟨visited, []⟩
  | ⟨visited, x :: rest⟩ =>
    if visited.contains x then ⟨visited, rest⟩
    else ⟨x :: visited, d.put ((next x).filter fun y => !(x :: visited).contains y) rest⟩

/-- **The loop ends**: after some number of turns the list is empty, and these are the places
visited. -/
def Ends (d : Discipline) (next : α → List α) (w : Worklist α) (visited : List α) : Prop :=
  ∃ turns : ℕ, (turn d next)^[turns] w = ⟨visited, []⟩

/-- A place is known when it was visited or is on the list. -/
def Knows (w : Worklist α) (x : α) : Prop := x ∈ w.visited ∨ x ∈ w.pending

/-- **The invariant of the loop.** -/
structure Valid (next : α → List α) (places : List α) (w : Worklist α) : Prop where
  /-- No place is visited twice. -/
  nodup : w.visited.Nodup
  /-- The places known can be reached. -/
  reached : ∀ y, w.Knows y → ∃ x ∈ places, ReflTransGen (Leads next) x y
  /-- The places to start from are known. -/
  started : ∀ x ∈ places, w.Knows x
  /-- The successors of a place visited are known. -/
  closed : ∀ x ∈ w.visited, ∀ y ∈ next x, w.Knows y

variable {d : Discipline} {next : α → List α} {places rest U visited : List α}
  {w : Worklist α} {x y : α}

/-! ### One turn -/

/-- What a turn does to a list that is not empty. -/
theorem turn_cons (d : Discipline) (next : α → List α) (visited : List α) (x : α)
    (rest : List α) :
    (x ∈ visited ∧ turn d next ⟨visited, x :: rest⟩ = ⟨visited, rest⟩) ∨
      (x ∉ visited ∧ turn d next ⟨visited, x :: rest⟩ =
        ⟨x :: visited, d.put ((next x).filter fun y => !(x :: visited).contains y) rest⟩) := by
  by_cases hx : x ∈ visited
  · exact .inl ⟨hx, by rw [turn, if_pos (List.contains_iff_mem.2 hx)]⟩
  · exact .inr ⟨hx, by rw [turn, if_neg (mt List.contains_iff_mem.1 hx)]⟩

omit [DecidableEq α] in
/-- A place that is dropped stays known. -/
theorem knows_drop (hx : x ∈ visited) :
    Knows ⟨visited, rest⟩ y ↔ Knows ⟨visited, x :: rest⟩ y := by
  simp only [Knows, List.mem_cons]
  constructor
  · exact Or.imp_right .inr
  · rintro (hy | rfl | hy)
    exacts [.inl hy, .inl hx, .inr hy]

/-- By a visit the successors become known, and nothing else. -/
theorem knows_visit :
    Knows ⟨x :: visited, d.put ((next x).filter fun y => !(x :: visited).contains y) rest⟩ y ↔
      Knows ⟨visited, x :: rest⟩ y ∨ y ∈ next x := by
  have hfresh : (!(x :: visited).contains y) = true ↔ ¬ (y = x ∨ y ∈ visited) := by simp
  simp only [Knows, Discipline.mem_put, List.mem_filter, hfresh, List.mem_cons]
  tauto

/-- **A turn keeps the invariant.** -/
theorem Valid.turn (h : Valid next places w) : Valid next places (w.turn d next) := by
  obtain ⟨visited, pending⟩ := w
  cases pending with
  | nil => exact h
  | cons x rest =>
    rcases turn_cons d next visited x rest with ⟨hx, heq⟩ | ⟨hx, heq⟩
    · rw [heq]
      exact {
        nodup := h.nodup
        reached := fun y hy => h.reached y ((knows_drop hx).1 hy)
        started := fun y hy => (knows_drop hx).2 (h.started y hy)
        closed := fun p hp y hy => (knows_drop hx).2 (h.closed p hp y hy) }
    · rw [heq]
      have hreached := h.reached x (.inr (List.mem_cons_self ..))
      exact {
        nodup := List.nodup_cons.2 ⟨hx, h.nodup⟩
        reached := fun y hy => by
          rcases knows_visit.1 hy with hy | hy
          · exact h.reached y hy
          · obtain ⟨p, hp, hpx⟩ := hreached
            exact ⟨p, hp, hpx.tail hy⟩
        started := fun y hy => knows_visit.2 (.inl (h.started y hy))
        closed := fun p hp y hy => by
          rcases List.mem_cons.1 hp with rfl | hp
          · exact knows_visit.2 (.inr hy)
          · exact knows_visit.2 (.inl (h.closed p hp y hy)) }

/-! ### The whole run -/

omit [DecidableEq α] in
theorem valid_start (next : α → List α) (places : List α) : Valid next places ⟨[], places⟩ where
  nodup := List.nodup_nil
  reached y hy := ⟨y, hy.resolve_left List.not_mem_nil, .refl⟩
  started _ hx := .inr hx
  closed _ hx := absurd hx List.not_mem_nil

omit [DecidableEq α] in
/-- When the list is empty, the places visited are those that can be reached. -/
theorem Valid.mem_visited_iff (h : Valid next places ⟨visited, []⟩) :
    y ∈ visited ↔ ∃ x ∈ places, ReflTransGen (Leads next) x y := by
  have hvisited : ∀ {y}, Knows ⟨visited, []⟩ y → y ∈ visited :=
    fun hy => hy.resolve_right List.not_mem_nil
  constructor
  · exact fun hy => h.reached y (.inl hy)
  · rintro ⟨x, hx, hxy⟩
    induction hxy with
    | refl => exact hvisited (h.started x hx)
    | tail _ hyz ih => exact hvisited (h.closed _ ih _ hyz)

omit [DecidableEq α] in
/-- Nothing is known outside a universe that the successor function does not leave. -/
theorem Valid.mem_of_knows (h : Valid next places w) (hplaces : places ⊆ U)
    (hclosed : ∀ x ∈ U, next x ⊆ U) (hy : w.Knows y) : y ∈ U := by
  obtain ⟨x, hx, hxy⟩ := h.reached y hy
  clear hy
  induction hxy with
  | refl => exact hplaces hx
  | tail _ hyz ih => exact hclosed _ ih hyz

/-- What a loop within a universe has left to do: places to visit, and then places to drop. -/
def remaining (U : List α) (w : Worklist α) : ℕ ×ₗ ℕ :=
  toLex (U.length - w.visited.length, w.pending.length)

/-- **A turn leaves less to do.** -/
theorem Valid.remaining_turn_lt (h : Valid next places w) (hplaces : places ⊆ U)
    (hclosed : ∀ x ∈ U, next x ⊆ U) (hpending : w.pending ≠ []) :
    remaining U (w.turn d next) < remaining U w := by
  have hturn : Valid next places (w.turn d next) := h.turn
  obtain ⟨visited, _ | ⟨x, rest⟩⟩ := w
  · exact absurd rfl hpending
  rcases turn_cons d next visited x rest with ⟨-, heq⟩ | ⟨-, heq⟩
  · rw [heq]
    exact Prod.Lex.toLex_lt_toLex.2 (.inr ⟨rfl, Nat.lt_succ_self _⟩)
  · rw [heq] at hturn ⊢
    have hsubset : (x :: visited) ⊆ U :=
      fun y hy => hturn.mem_of_knows hplaces hclosed (.inl hy)
    have hlen : visited.length + 1 ≤ U.length := (hturn.nodup.subperm hsubset).length_le
    refine Prod.Lex.toLex_lt_toLex.2 (.inl ?_)
    change U.length - (visited.length + 1) < U.length - visited.length
    omega

/-- So the list runs empty, with the invariant still there. -/
theorem Valid.exists_ends (h : Valid next places w) (hplaces : places ⊆ U)
    (hclosed : ∀ x ∈ U, next x ⊆ U) :
    ∃ visited, w.Ends d next visited ∧ Valid next places ⟨visited, []⟩ := by
  induction hr : remaining U w using WellFoundedLT.induction generalizing w with
  | ind r ih =>
    subst hr
    by_cases hpending : w.pending = []
    · obtain ⟨visited, pending⟩ := w
      obtain rfl : pending = [] := hpending
      exact ⟨visited, ⟨0, rfl⟩, h⟩
    · obtain ⟨visited, ⟨turns, hturns⟩, hvisited⟩ :=
        ih _ (h.remaining_turn_lt hplaces hclosed hpending) h.turn rfl
      exact ⟨visited, ⟨turns + 1, hturns⟩, hvisited⟩

/-- **Every traversal of a finite graph ends.**  It has then visited the places that can be
reached from where it starts, each of them once. -/
theorem exists_ends (d : Discipline) (hplaces : places ⊆ U) (hclosed : ∀ x ∈ U, next x ⊆ U) :
    ∃ visited, Ends d next ⟨[], places⟩ visited ∧ visited.Nodup ∧
      ∀ y, y ∈ visited ↔ ∃ x ∈ places, ReflTransGen (Leads next) x y := by
  obtain ⟨visited, hends, h⟩ :=
    (valid_start next places).exists_ends (d := d) hplaces hclosed
  exact ⟨visited, hends, h.nodup, fun y => h.mem_visited_iff⟩

end Worklist

end FiniteState
