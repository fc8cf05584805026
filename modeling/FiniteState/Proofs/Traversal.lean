import Mathlib.Logic.Relation
import FiniteState.Traversal
import FiniteState.Proofs.List

/-!
# Exploration finds exactly what can be reached

An exploration with as many rounds as there are places in some closed universe
finds exactly the places that the successor function reaches, each of them once.
Each round but the last adds a place, and a list without repetitions that is as
long as the universe is all of it, so the rounds cannot run out too early.

## Main results

* `mem_explore_iff` — **the specification of `explore`**: the places found are
  those reached by the reflexive transitive closure of the successor function.
* `nodup_explore` — every place is found once.
-/

namespace FiniteState

open Relation

variable {α : Type} {next : α → List α}

/-- One step of the successor function. -/
def Leads (next : α → List α) (x y : α) : Prop := y ∈ next x

variable [DecidableEq α]

/-! ### Soundness -/

theorem reached_of_mem_exploreFrom {places : List α} (rounds : ℕ) {found frontier : List α}
    (hfrontier : frontier ⊆ found)
    (hfound : ∀ x ∈ found, ∃ p ∈ places, ReflTransGen (Leads next) p x) :
    ∀ x ∈ exploreFrom next rounds found frontier,
      ∃ p ∈ places, ReflTransGen (Leads next) p x := by
  induction rounds generalizing found frontier with
  | zero => exact hfound
  | succ rounds ih =>
    rw [exploreFrom]
    split
    · exact hfound
    · refine ih (fun x hx => List.mem_append_right _ hx) fun x hx => ?_
      rcases List.mem_append.1 hx with hx | hx
      · exact hfound x hx
      · obtain ⟨⟨y, hy, hxy⟩, -⟩ := mem_freshSuccessors.1 hx
        obtain ⟨p, hp, hpy⟩ := hfound y (hfrontier hy)
        exact ⟨p, hp, hpy.tail hxy⟩

/-! ### Completeness -/

theorem nodup_append_freshSuccessors {found frontier : List α} (hnd : found.Nodup) :
    (found ++ freshSuccessors next found frontier).Nodup := by
  refine List.nodup_append.2 ⟨hnd, List.nodup_eraseDups _, fun x hx y hy hxy => ?_⟩
  subst hxy
  exact (mem_freshSuccessors.1 hy).2 hx

theorem nodup_exploreFrom (rounds : ℕ) {found frontier : List α} (hnd : found.Nodup) :
    (exploreFrom next rounds found frontier).Nodup := by
  induction rounds generalizing found frontier with
  | zero => exact hnd
  | succ rounds ih =>
    rw [exploreFrom]
    split
    · exact hnd
    · exact ih (nodup_append_freshSuccessors hnd)

/-- **The invariant of the rounds.**  A place that was found and is not on the
frontier has all its successors among the places found.  When the rounds end, for
whichever reason, no successor of a place found is missing. -/
theorem exploreFrom_closed {U : List α} (hclosed : ∀ x ∈ U, next x ⊆ U)
    (rounds : ℕ) {found frontier : List α} (hnd : found.Nodup) (hsub : found ⊆ U)
    (hfrontier : frontier ⊆ found) (hlen : U.length ≤ found.length + rounds)
    (hinv : ∀ x ∈ found, x ∉ frontier → next x ⊆ found) :
    ∀ x ∈ exploreFrom next rounds found frontier,
      next x ⊆ exploreFrom next rounds found frontier := by
  induction rounds generalizing found frontier with
  | zero =>
    -- the places found are the whole universe
    intro x hx y hy
    exact hnd.mem_of_length_le hsub hlen (hclosed x (hsub hx) hy)
  | succ rounds ih =>
    rw [exploreFrom]
    split
    · -- the frontier has no successor that is not found, so the rounds end
      rename_i hfresh
      intro x hx y hy
      by_cases hxf : x ∈ frontier
      · by_contra hyf
        have : y ∈ freshSuccessors next found frontier :=
          mem_freshSuccessors.2 ⟨⟨x, hxf, hy⟩, hyf⟩
        rw [List.isEmpty_iff.1 hfresh] at this
        exact List.not_mem_nil this
      · exact hinv x hx hxf hy
    · -- the fresh successors are the next frontier, and there is one at least
      rename_i hfresh
      have hpos : 0 < (freshSuccessors next found frontier).length :=
        List.length_pos_iff.2 fun h => hfresh (List.isEmpty_iff.2 h)
      refine ih (nodup_append_freshSuccessors hnd) ?_ (fun x hx => List.mem_append_right _ hx)
        (by rw [List.length_append]; omega) ?_
      · intro x hx
        rcases List.mem_append.1 hx with hx | hx
        · exact hsub hx
        · obtain ⟨⟨y, hy, hxy⟩, -⟩ := mem_freshSuccessors.1 hx
          exact hclosed y (hsub (hfrontier hy)) hxy
      · intro x hx hxf y hy
        have hx : x ∈ found := (List.mem_append.1 hx).resolve_right hxf
        by_cases hyf : y ∈ found
        · exact List.mem_append_left _ hyf
        by_cases hxold : x ∈ frontier
        · exact List.mem_append_right _ (mem_freshSuccessors.2 ⟨⟨x, hxold, hy⟩, hyf⟩)
        · exact absurd (hinv x hx hxold hy) hyf

/-! ### The specification -/

theorem nodup_explore (rounds : ℕ) (places : List α) : (explore next rounds places).Nodup :=
  nodup_exploreFrom rounds (List.nodup_eraseDups places)

/-- Nothing is found from nowhere. -/
theorem explore_nil (rounds : ℕ) : explore next rounds [] = [] := by
  cases rounds <;> rfl

/-- **The specification of `explore`**: within a universe that the successor
function does not leave, and with as many rounds as the universe has places, the
places found are those that can be reached. -/
theorem mem_explore_iff {U places : List α} {rounds : ℕ}
    (hplaces : places ⊆ U) (hclosed : ∀ x ∈ U, next x ⊆ U)
    (hlen : U.length ≤ rounds) {y : α} :
    y ∈ explore next rounds places ↔ ∃ x ∈ places, ReflTransGen (Leads next) x y := by
  constructor
  · refine reached_of_mem_exploreFrom rounds (fun x hx => hx) (fun x hx => ?_) y
    exact ⟨x, List.mem_eraseDups.1 hx, .refl⟩
  · rintro ⟨x, hx, hxy⟩
    induction hxy with
    | refl => exact mem_explore_of_mem hx
    | tail _ hyz ih =>
      exact exploreFrom_closed hclosed rounds (List.nodup_eraseDups places)
        (fun x hx => hplaces (List.mem_eraseDups.1 hx)) (fun x hx => hx)
        (Nat.le_trans hlen (Nat.le_add_left _ _)) (fun x hx hxf => absurd hx hxf) _ ih hyz

end FiniteState
