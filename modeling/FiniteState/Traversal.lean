/-!
# Breadth-first exploration

All traversals of the library are one function.  From a list of places it goes on, level by level,
to the places that a successor function gives, and it lists every place once, in the order in which
the places are discovered.  Each round looks only at the places discovered in the round before it.

## Main definitions

* `explore` — the places discovered from a list of places within a number of rounds.

The lemma `mem_explore_of_mem` says that no place an exploration starts from is lost, and
`mem_freshSuccessors` what a round adds.
-/

namespace FiniteState

variable {α : Type} [DecidableEq α]

/-- The successors of the frontier that were not found before, each once, in order. -/
def freshSuccessors (next : α → List α) (found frontier : List α) : List α :=
  ((frontier.flatMap next).filter fun x => !found.contains x).eraseDups

/-- One round after the other: the fresh successors of the frontier are added to what was found and
become the next frontier, until there are none. -/
def exploreFrom (next : α → List α) : Nat → List α → List α → List α
  | 0, found, _ => found
  | rounds + 1, found, frontier =>
    let fresh := freshSuccessors next found frontier
    if fresh.isEmpty then found else exploreFrom next rounds (found ++ fresh) fresh

/-- The places that can be reached from the given ones within a number of rounds, each once, in the
order of their discovery.  As many rounds as there are places are always enough. -/
def explore (next : α → List α) (rounds : Nat) (places : List α) : List α :=
  exploreFrom next rounds places.eraseDups places.eraseDups

/-! ### Fresh successors -/

theorem mem_freshSuccessors {next : α → List α} {found frontier : List α} {y : α} :
    y ∈ freshSuccessors next found frontier ↔ (∃ x ∈ frontier, y ∈ next x) ∧ y ∉ found := by
  simp [freshSuccessors, List.mem_eraseDups]

theorem mem_exploreFrom_of_mem {next : α → List α} {rounds : Nat} {found frontier : List α} {x : α}
    (h : x ∈ found) : x ∈ exploreFrom next rounds found frontier := by
  induction rounds generalizing found frontier with
  | zero => exact h
  | succ rounds ih =>
    rw [exploreFrom]
    split
    · exact h
    · exact ih (List.mem_append_left _ h)

/-- The places that an exploration starts from are among those it finds. -/
theorem mem_explore_of_mem {next : α → List α} {rounds : Nat} {places : List α} {x : α}
    (h : x ∈ places) : x ∈ explore next rounds places :=
  mem_exploreFrom_of_mem (List.mem_eraseDups.2 h)

end FiniteState
