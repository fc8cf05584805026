import FiniteState.Label.Basic

/-!
# Pools of fresh labels

A pool hands out labels that were not used before.  It keeps the labels in use, and a cursor into
the sequence `Label.nth` below which every label is in use, so that the search for the least free
label need not start at the beginning each time.

## Main definitions

* `LabelPool` — the pool; `LabelPool.full` has no label in use.
* `LabelPool.exclude` — marks a label as used; `LabelPool.excluding` does so for a list.
* `LabelPool.reserve` — claims a single letter that is still free.
* `LabelPool.take` — hands out the least free label; `LabelPool.takeMany` does so repeatedly.
-/

namespace FiniteState

/-- A supply of fresh labels. -/
structure LabelPool where
  /-- The labels that are not free. -/
  used : List Label
  /-- A place of the sequence of labels before which no label is free. -/
  cursor : Nat
  /-- Every label before the cursor is used. -/
  used_below : ∀ i, i < cursor → Label.nth i ∈ used

namespace LabelPool

/-- The pool in which every label is free. -/
def full : LabelPool := ⟨[], 0, fun _ h => absurd h (Nat.not_lt_zero _)⟩

/-- The pool with one more label in use. -/
def exclude (pool : LabelPool) (l : Label) : LabelPool where
  used := l :: pool.used
  cursor := pool.cursor
  used_below i h := List.mem_cons_of_mem _ (pool.used_below i h)

/-- The pool that never hands out any of the labels. -/
def excluding (labels : List Label) : LabelPool := labels.foldl exclude full

/-- Claims a label if it is a single letter that is still free, and tells whether it was. -/
def reserve (pool : LabelPool) (l : Label) : Bool × LabelPool :=
  if l.isLetter && !pool.used.contains l then (true, pool.exclude l) else (false, pool)

/-! ### The least free label -/

/-- The first place from `i` on, and at most `fuel` places further, whose label is not used. -/
def firstFree (used : List Label) : Nat → Nat → Nat
  | 0, i => i
  | fuel + 1, i => if used.contains (Label.nth i) then firstFree used fuel (i + 1) else i

/-- The labels that the search passes over are used. -/
theorem used_of_lt_firstFree {used : List Label} {fuel i j : Nat} (hij : i ≤ j)
    (hj : j < firstFree used fuel i) : Label.nth j ∈ used := by
  induction fuel generalizing i with
  | zero => exact absurd hij (Nat.not_le.2 hj)
  | succ fuel ih =>
    rw [firstFree] at hj
    split at hj
    · rename_i hused
      rcases Nat.eq_or_lt_of_le hij with rfl | hij
      · exact List.contains_iff_mem.1 hused
      · exact ih hij hj
    · exact absurd hij (Nat.not_le.2 hj)

/-- The place of the least free label.  Among one more label than are in use one is free, so the
search ends. -/
def nextPlace (pool : LabelPool) : Nat := firstFree pool.used (pool.used.length + 1) pool.cursor

/-- Hands out the least free label. -/
def take (pool : LabelPool) : Label × LabelPool :=
  (Label.nth pool.nextPlace,
    { used := Label.nth pool.nextPlace :: pool.used
      cursor := pool.nextPlace + 1
      used_below := by
        intro i hi
        rcases Nat.eq_or_lt_of_le (Nat.le_of_lt_succ hi) with rfl | hi
        · exact List.mem_cons_self
        · apply List.mem_cons_of_mem
          rcases Nat.lt_or_ge i pool.cursor with hlt | hge
          · exact pool.used_below i hlt
          · exact used_of_lt_firstFree hge hi })

/-- Hands out several labels, one after the other. -/
def takeMany : Nat → LabelPool → List Label × LabelPool
  | 0, pool => ([], pool)
  | n + 1, pool =>
    let (label, pool) := pool.take
    let (labels, pool) := takeMany n pool
    (label :: labels, pool)

/-! ### Names for a list of labels -/

/-- Claims those labels of a list that are free letters, and lists them. -/
def reserveAll : List Label → LabelPool → List Label × LabelPool
  | [], pool => ([], pool)
  | l :: rest, pool =>
    let (granted, pool) := pool.reserve l
    let (kept, pool) := reserveAll rest pool
    (if granted then l :: kept else kept, pool)

/-- Pairs each label with its new name: itself if it was kept, and a fresh label otherwise. -/
def nameAll (kept : List Label) : List Label → LabelPool → List (Label × Label) × LabelPool
  | [], pool => ([], pool)
  | l :: rest, pool =>
    if kept.contains l then
      let (names, pool) := nameAll kept rest pool
      ((l, l) :: names, pool)
    else
      let (fresh, pool) := pool.take
      let (names, pool) := nameAll kept rest pool
      ((l, fresh) :: names, pool)

/-- New names for a list of labels.  A label that is a free letter keeps its name; the others take
the least free labels in the order of the list. -/
def names (pool : LabelPool) (labels : List Label) : List (Label × Label) × LabelPool :=
  let (kept, pool) := pool.reserveAll labels
  nameAll kept labels pool

end LabelPool

end FiniteState
