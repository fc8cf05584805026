/-!
# Finite sets of natural numbers

A finite set of numbers is kept as one natural number, whose binary digit at place `i` tells whether
`i` is a member.  Two sets with the same members are the same number, so equality of sets is
equality of values and a set can serve as a key.

## Main definitions

* `NatSet` — the sets, with `Membership` and the operations `insert`, `union`, `meets`.
* `NatSet.toList` — the members in ascending order; `NatSet.size` — how many there are.
* `NatSet.text` — the members between braces.

The lemmas `mem_insert`, `mem_union`, `meets_iff`, `mem_toList` and `ext` say what each operation
does to membership.
-/

namespace FiniteState

/-- A finite set of natural numbers, kept as the number whose binary digits tell the members. -/
structure NatSet where
  bits : Nat
  deriving DecidableEq, Repr

namespace NatSet

/-- The set without members. -/
def empty : NatSet := ⟨0⟩

instance : EmptyCollection NatSet := ⟨empty⟩

/-- The number is a member. -/
def contains (s : NatSet) (i : Nat) : Bool := s.bits.testBit i

instance : Membership Nat NatSet := ⟨fun s i => s.contains i = true⟩

instance (s : NatSet) (i : Nat) : Decidable (i ∈ s) :=
  inferInstanceAs (Decidable (s.contains i = true))

/-- The set has no members. -/
def isEmpty (s : NatSet) : Bool := s.bits == 0

/-- The set with one more member. -/
def insert (s : NatSet) (i : Nat) : NatSet := ⟨s.bits ||| 1 <<< i⟩

/-- The set of one number. -/
def singleton (i : Nat) : NatSet := empty.insert i

/-- The numbers that are members of either set. -/
def union (s t : NatSet) : NatSet := ⟨s.bits ||| t.bits⟩

/-- The two sets have a member in common. -/
def meets (s t : NatSet) : Bool := s.bits &&& t.bits != 0

/-- The set of the numbers of a list. -/
def ofList (l : List Nat) : NatSet := l.foldl insert empty

/-- The places of the ones among the first `1 <<< k` binary digits of a number, in ascending order
and counted from an offset.  The digits are halved until one is left, and a half without ones is
passed over. -/
def placesFrom : Nat → Nat → Nat → List Nat
  | 0, n, offset => if n.testBit 0 then [offset] else []
  | k + 1, n, offset =>
    if n = 0 then []
    else
      placesFrom k (n % (1 <<< (1 <<< k))) offset ++
        placesFrom k (n >>> (1 <<< k)) (offset + (1 <<< k))

/-- The members, in ascending order. -/
def toList (s : NatSet) : List Nat := placesFrom (s.bits.log2.log2 + 1) s.bits 0

/-- The number of members. -/
def size (s : NatSet) : Nat := s.toList.length

/-- The members between braces. -/
def text (s : NatSet) : String :=
  "\x7b" ++ ", ".intercalate (s.toList.map toString) ++ "\x7d"

/-! ### Membership -/

theorem mem_def {s : NatSet} {i : Nat} : i ∈ s ↔ s.bits.testBit i = true := Iff.rfl

/-- A set is determined by its members. -/
theorem ext {s t : NatSet} (h : ∀ i, i ∈ s ↔ i ∈ t) : s = t := by
  rcases s with ⟨m⟩
  rcases t with ⟨n⟩
  have : m = n := Nat.eq_of_testBit_eq fun i => by
    have := h i
    simp only [mem_def] at this
    exact Bool.eq_iff_iff.2 this
  rw [this]

@[simp] theorem notMem_empty (i : Nat) : i ∉ (∅ : NatSet) := by
  change ¬ (0 : Nat).testBit i = true
  simp

@[simp] theorem mem_insert {s : NatSet} {i j : Nat} : j ∈ s.insert i ↔ j = i ∨ j ∈ s := by
  simp only [mem_def, insert, Nat.testBit_or, Nat.shiftLeft_eq, Nat.one_mul, Nat.testBit_two_pow,
    Bool.or_eq_true, decide_eq_true_eq]
  constructor
  · rintro (h | h)
    · exact .inr h
    · exact .inl h.symm
  · rintro (h | h)
    · exact .inr h.symm
    · exact .inl h

@[simp] theorem mem_singleton {i j : Nat} : j ∈ singleton i ↔ j = i := by
  rw [singleton, mem_insert]
  exact or_iff_left (notMem_empty j)

@[simp] theorem mem_union {s t : NatSet} {i : Nat} : i ∈ s.union t ↔ i ∈ s ∨ i ∈ t := by
  simp only [mem_def, union, Nat.testBit_or, Bool.or_eq_true]

theorem meets_iff {s t : NatSet} : s.meets t = true ↔ ∃ i, i ∈ s ∧ i ∈ t := by
  simp only [meets, bne_iff_ne, ne_eq, mem_def]
  constructor
  · intro h
    obtain ⟨i, hi⟩ := Nat.exists_testBit_of_ne_zero h
    rw [Nat.testBit_and, Bool.and_eq_true] at hi
    exact ⟨i, hi⟩
  · rintro ⟨i, hs, ht⟩ h
    have := congrArg (·.testBit i) h
    simp [hs, ht] at this

theorem mem_placesFrom {k n offset i : Nat} :
    i ∈ placesFrom k n offset ↔
      offset ≤ i ∧ i < offset + (1 <<< k) ∧ n.testBit (i - offset) = true := by
  rw [Nat.one_shiftLeft]
  induction k generalizing n offset with
  | zero =>
    rw [placesFrom]
    constructor
    · intro h
      split at h
      · rename_i hn
        rw [List.mem_singleton] at h
        subst h
        exact ⟨Nat.le_refl i, by omega, by rwa [Nat.sub_self]⟩
      · exact absurd h List.not_mem_nil
    · rintro ⟨hle, hlt, hn⟩
      have : i = offset := by omega
      subst this
      rw [Nat.sub_self] at hn
      simp [hn]
  | succ k ih =>
    rw [placesFrom]
    split
    · rename_i hn
      simp [hn]
    · rw [List.mem_append, ih, ih, Nat.one_shiftLeft, Nat.one_shiftLeft, Nat.testBit_mod_two_pow,
        Nat.testBit_shiftRight, Nat.pow_succ]
      by_cases h : i < offset + 2 ^ k
      · -- the digit lies in the lower half
        have : i - offset < 2 ^ k := by have := Nat.two_pow_pos k; omega
        simp only [this, decide_true, Bool.true_and]
        constructor
        · rintro (⟨hle, _, hi⟩ | ⟨hle, _⟩)
          · exact ⟨hle, by omega, hi⟩
          · omega
        · rintro ⟨hle, _, hi⟩
          exact .inl ⟨hle, h, hi⟩
      · -- the digit lies in the upper half
        constructor
        · rintro (⟨_, hlt, _⟩ | ⟨hle, hlt, hi⟩)
          · omega
          · have : 2 ^ k + (i - (offset + 2 ^ k)) = i - offset := by omega
            rw [this] at hi
            exact ⟨by omega, by omega, hi⟩
        · rintro ⟨hle, hlt, hi⟩
          have : 2 ^ k + (i - (offset + 2 ^ k)) = i - offset := by omega
          refine .inr ⟨by omega, by omega, ?_⟩
          rw [this]
          exact hi

theorem pairwise_placesFrom (k n offset : Nat) : (placesFrom k n offset).Pairwise (· < ·) := by
  induction k generalizing n offset with
  | zero =>
    rw [placesFrom]
    split
    · exact List.pairwise_singleton _ _
    · exact .nil
  | succ k ih =>
    rw [placesFrom]
    split
    · exact .nil
    · rw [List.pairwise_append]
      refine ⟨ih _ _, ih _ _, fun a ha b hb => ?_⟩
      have ha := (mem_placesFrom.1 ha).2.1
      have hb := (mem_placesFrom.1 hb).1
      omega

@[simp] theorem mem_toList {s : NatSet} {i : Nat} : i ∈ s.toList ↔ i ∈ s := by
  rw [toList, mem_placesFrom, Nat.sub_zero, mem_def]
  refine ⟨fun h => h.2.2, fun h => ⟨Nat.zero_le i, ?_, h⟩⟩
  -- a digit beyond the highest one is zero
  apply Nat.lt_of_not_le
  intro hle
  have hlog : s.bits.log2 < i := by
    have : s.bits.log2 < 2 ^ (s.bits.log2.log2 + 1) := Nat.lt_log2_self
    omega
  have hlt : s.bits < 2 ^ i :=
    Nat.lt_of_lt_of_le Nat.lt_log2_self (Nat.pow_le_pow_right (by decide) hlog)
  rw [Nat.testBit_lt_two_pow hlt] at h
  exact absurd h (by decide)

/-- The list of the members is strictly ascending. -/
theorem pairwise_toList (s : NatSet) : s.toList.Pairwise (· < ·) := pairwise_placesFrom _ _ _

theorem mem_ofList {l : List Nat} {i : Nat} : i ∈ ofList l ↔ i ∈ l := by
  have key : ∀ (l : List Nat) (s : NatSet), i ∈ l.foldl insert s ↔ i ∈ l ∨ i ∈ s := by
    intro l
    induction l with
    | nil => simp
    | cons a l ih =>
      intro s
      rw [List.foldl_cons, ih, mem_insert, List.mem_cons]
      constructor
      · rintro (h | h | h)
        · exact .inl (.inr h)
        · exact .inl (.inl h)
        · exact .inr h
      · rintro ((h | h) | h)
        · exact .inr (.inl h)
        · exact .inl h
        · exact .inr (.inr h)
  rw [ofList, key]
  exact or_iff_left (notMem_empty i)

theorem isEmpty_iff {s : NatSet} : s.isEmpty = true ↔ s = ∅ := by
  rcases s with ⟨n⟩
  simp only [isEmpty, beq_iff_eq]
  constructor
  · rintro rfl
    rfl
  · intro h
    exact congrArg bits h

end NatSet

end FiniteState
