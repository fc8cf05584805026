/-!
# Distinguishable states

Two states of a complete deterministic machine are *distinguishable* if some word leads exactly one
of them to an accepting state.  The table of distinguishable pairs is filled from the end of such
words: at first the pairs are marked of which one state accepts and the other does not, and from
each marked pair the mark spreads to the pairs that some symbol leads to it.  A pair is marked once,
and waits until the mark has spread from it; when no pair is waiting, the table is complete.

## Main definitions

* `NumberedMachine` — a complete machine whose states are the numbers below a bound.
* `Marks` — tables of pairs of states.
* `Filling` — a table with the marked pairs that are waiting.
* `NumberedMachine.distinguish` — the table of distinguishable pairs.
* `Marks.representatives` — the least state of each class of pairwise unmarked states.
-/

namespace FiniteState

/-- A complete deterministic machine on the numbers below `n`. -/
structure NumberedMachine (n : Nat) where
  /-- The state accepts. -/
  accepting : Vector Bool n
  /-- For each symbol, the state that each state is led to. -/
  steps : List (Vector (Fin n) n)

/-! ### Tables -/

/-- A table of pairs of states, each marked or not. -/
structure Marks (n : Nat) where
  /-- The rows of the table, one after the other. -/
  table : Vector Bool (n * n)
  deriving DecidableEq

namespace Marks

variable {n : Nat}

/-- The place of a pair in the table. -/
def place (u v : Fin n) : Fin (n * n) :=
  ⟨u * n + v, calc
    u * n + v < u * n + n := Nat.add_lt_add_left v.isLt _
    _ = (u + 1) * n := (Nat.succ_mul _ _).symm
    _ ≤ n * n := Nat.mul_le_mul_right n u.isLt⟩

theorem place_inj {u v p q : Fin n} : place u v = place p q ↔ u = p ∧ v = q := by
  constructor
  · intro h
    have h : u.val * n + v.val = p.val * n + q.val := congrArg Fin.val h
    have hn : 0 < n := Nat.lt_of_le_of_lt (Nat.zero_le _) u.isLt
    have quotient := congrArg (· / n) h
    simp only [Nat.mul_comm _ n, Nat.mul_add_div hn, Nat.div_eq_of_lt v.isLt,
      Nat.div_eq_of_lt q.isLt, Nat.add_zero] at quotient
    have remainder := congrArg (· % n) h
    simp only [Nat.mul_comm _ n, Nat.mul_add_mod, Nat.mod_eq_of_lt v.isLt,
      Nat.mod_eq_of_lt q.isLt] at remainder
    exact ⟨Fin.ext quotient, Fin.ext remainder⟩
  · rintro ⟨rfl, rfl⟩
    rfl

/-- The table without marks. -/
def none : Marks n := ⟨Vector.replicate (n * n) false⟩

/-- The pair is marked. -/
def marked (t : Marks n) (u v : Fin n) : Bool := t.table[place u v]

/-- Marks a pair. -/
def mark (t : Marks n) (u v : Fin n) : Marks n := ⟨t.table.set (place u v) true⟩

@[simp] theorem marked_none (u v : Fin n) : (none : Marks n).marked u v = false := by
  simp [marked, none]

@[simp] theorem marked_mark (t : Marks n) (u v p q : Fin n) :
    (t.mark u v).marked p q = (decide (u = p ∧ v = q) || t.marked p q) := by
  by_cases h : u = p ∧ v = q
  · simp [marked, mark, h]
  · have hne : (place u v).val ≠ (place p q).val := fun e => h (place_inj.1 (Fin.ext e))
    simp [marked, mark, Vector.getElem_set_ne, hne, h]

/-- The least state that a state is not marked against. -/
def representative (t : Marks n) (u : Fin n) : Fin n :=
  ((List.finRange n).find? fun v => !t.marked v u).getD u

/-- The representatives of all states. -/
def representatives (t : Marks n) : Vector (Fin n) n := Vector.ofFn t.representative

end Marks

/-! ### Filling a table -/

/-- A table that is being filled. -/
structure Filling (n : Nat) where
  /-- The table. -/
  marks : Marks n
  /-- The marked pairs that the mark has not spread from. -/
  waiting : List (Fin n × Fin n)

namespace Filling

variable {n : Nat}

/-- The start, without marks. -/
def start : Filling n := ⟨.none, []⟩

/-- Marks a pair, which has to wait unless it was marked before. -/
def mark : Filling n → Fin n × Fin n → Filling n
  | ⟨marks, waiting⟩, (u, v) =>
    if marks.marked u v then ⟨marks, waiting⟩ else ⟨marks.mark u v, (u, v) :: waiting⟩

end Filling

namespace NumberedMachine

variable {n : Nat}

/-- For each state, the states that a step leads to it. -/
def sourcesOf (step : Vector (Fin n) n) : Vector (List (Fin n)) n :=
  Vector.ofFn fun p => (List.finRange n).filter fun u => step[u] = p

/-- For each symbol and state, the states that the symbol leads to it. -/
def sources (m : NumberedMachine n) : List (Vector (List (Fin n)) n) := m.steps.map sourcesOf

/-- The pairs that some symbol leads to a pair. -/
def pairsTo (sources : List (Vector (List (Fin n)) n)) : Fin n × Fin n → List (Fin n × Fin n)
  | (p, q) => sources.flatMap fun s => s[p].flatMap fun u => s[q].map fun v => (u, v)

/-- The states of which one accepts if and only if a given one does not. -/
def opposed (m : NumberedMachine n) (u : Fin n) : List (Fin n) :=
  (List.finRange n).filter fun v => m.accepting[u] != m.accepting[v]

/-- The table in which the pairs are marked of which one state accepts and the other does not. -/
def seeded (m : NumberedMachine n) : Filling n :=
  (List.finRange n).foldl
    (fun f u => (m.opposed u).foldl (fun f v => f.mark (u, v)) f) .start

/-- Spreads the mark from one waiting pair after the other. -/
def spread (sources : List (Vector (List (Fin n)) n)) : Nat → Filling n → Marks n
  | 0, f => f.marks
  | _ + 1, ⟨marks, []⟩ => marks
  | pairs + 1, ⟨marks, pair :: waiting⟩ =>
    spread sources pairs ((pairsTo sources pair).foldl Filling.mark ⟨marks, waiting⟩)

/-- The table of distinguishable pairs.  A pair waits once, so the mark spreads no more often than
there are pairs. -/
def distinguish (m : NumberedMachine n) : Marks n := spread m.sources (n * n) m.seeded

end NumberedMachine

end FiniteState
