import Mathlib.Data.List.GetD
import FiniteState.NatSet

/-!
# Sets of numbers with a capacity

A set of numbers can be kept in a store of binary digits that has only so many digits at hand.  The
store comes from elsewhere, and only what is said of its operations is known: a digit that is not
at hand is zero, a store that grows keeps its digits, and a digit is set only where it is at hand.
A set therefore grows before it takes a number beyond its capacity, and before it takes the members
of a set of larger capacity.  The numbers are words of 32 bits.

## Main definitions

* `BitStore`, `BitStore.Lawful` — stores of binary digits, and what is said of them.
* `BitStore.insert`, `BitStore.union` and so on — sets of numbers in a store.
* `BitStore.lists` — the store that is a list of digits.

## Main results

* `BitStore.Lawful.insert` — **a number can always be inserted**, whatever the capacity.
* `BitStore.Lawful.test_union` — a union has the members of both sets, whatever their capacities.
* `BitStore.lawful_lists` — lists of digits are such a store.
-/

namespace FiniteState

/-- A store of binary digits. -/
structure BitStore (β : Type) where
  /-- The store without digits. -/
  empty : β
  /-- A store with a number of digits, all of them zero. -/
  withCapacity : ℕ → β
  /-- The number of digits at hand. -/
  length : β → ℕ
  /-- A store with at least a number of digits; those that are added are zero. -/
  grow : β → ℕ → β
  /-- Makes a digit a one, and tells whether it was one before.  There is no result where the digit
  is not at hand. -/
  put : β → ℕ → Option (Bool × β)
  /-- The digit at a place is a one. -/
  test : β → ℕ → Bool
  /-- No digit is a one. -/
  isClear : β → Bool
  /-- The number of ones. -/
  countOnes : β → ℕ
  /-- The places of the ones. -/
  ones : β → List ℕ
  /-- The first store, with the ones of the second. -/
  unionWith : β → β → β
  /-- The places where both stores have a one. -/
  intersection : β → β → List ℕ

namespace BitStore

variable {β : Type}

/-- **What is said of a store.** -/
structure Lawful (B : BitStore β) : Prop where
  /-- A store without digits has no ones. -/
  test_empty : ∀ i, B.test B.empty i = false
  /-- The digits of a new store are zero. -/
  test_withCapacity : ∀ n i, B.test (B.withCapacity n) i = false
  /-- A digit that is not at hand is zero. -/
  test_of_length_le : ∀ b i, B.length b ≤ i → B.test b i = false
  /-- A store that has grown has at least so many digits. -/
  le_length_grow : ∀ b n, n ≤ B.length (B.grow b n)
  /-- A store that grows keeps its digits, and the others are zero. -/
  test_grow : ∀ b n i, B.test (B.grow b n) i = B.test b i
  /-- A digit at hand can be set, and no other digit changes. -/
  put_of_lt : ∀ b i, i < B.length b →
    ∃ b', B.put b i = some (B.test b i, b') ∧ ∀ j, B.test b' j = (B.test b j || j == i)
  /-- A store is clear iff it has no ones. -/
  isClear_iff : ∀ b, B.isClear b = true ↔ ∀ i, B.test b i = false
  /-- The ones are counted. -/
  countOnes_eq : ∀ b, B.countOnes b = (B.ones b).length
  /-- The ones are listed. -/
  mem_ones : ∀ b i, i ∈ B.ones b ↔ B.test b i = true
  /-- They are listed in ascending order. -/
  pairwise_ones : ∀ b, (B.ones b).Pairwise (· < ·)
  /-- The ones of a store with no more digits can be added. -/
  test_unionWith : ∀ b c i, B.length c ≤ B.length b →
    B.test (B.unionWith b c) i = (B.test b i || B.test c i)
  /-- The common ones are listed. -/
  mem_intersection : ∀ b c i, i ∈ B.intersection b c ↔ B.test b i = true ∧ B.test c i = true

/-! ### Sets in a store -/

section Operations

variable (B : BitStore β)

/-- The set with one more member, after it was told whether the number was absent.  The store grows
first if it has no digit for the number. -/
def insert (b : β) (w : UInt32) : Option (Bool × β) :=
  let i := w.toNat
  let b := if B.length b ≤ i then B.grow b (i + 1) else b
  (B.put b i).map fun (present, b) => (!present, b)

/-- The set of one number, with room for others. -/
def singleton (w : UInt32) (capacity : ℕ) : Option β :=
  (B.insert (B.withCapacity capacity) w).map Prod.snd

/-- The set of the numbers of a list. -/
def collect (ws : List UInt32) : Option β :=
  ws.foldlM (fun b w => (B.insert b w).map Prod.snd) B.empty

/-- The number is a member. -/
def contains (b : β) (w : UInt32) : Bool := decide (w.toNat < B.length b) && B.test b w.toNat

/-- The members, as words. -/
def iter (b : β) : List UInt32 := (B.ones b).map UInt32.ofNat

/-- The numbers that are members of either set.  The first store grows before it takes the ones of
a longer one. -/
def union (b c : β) : β :=
  B.unionWith (if B.length b < B.length c then B.grow b (B.length c) else b) c

/-- The two sets have a member in common. -/
def intersects (b c : β) : Bool := (B.intersection b c).head?.isSome

/-- The two sets have the same members. -/
def equal (b c : β) : Bool := B.iter b == B.iter c

end Operations

/-! ### What the operations do to the digits -/

namespace Lawful

variable {B : BitStore β} (h : B.Lawful)
include h

theorem lt_length {b : β} {i : ℕ} (hi : B.test b i = true) : i < B.length b :=
  Nat.lt_of_not_le fun hle => Bool.false_ne_true ((h.test_of_length_le b i hle).symm.trans hi)

/-- **A number can always be inserted**, also beyond the capacity. -/
theorem insert (b : β) (w : UInt32) : ∃ b', B.insert b w = some (!B.test b w.toNat, b') ∧
    ∀ j, B.test b' j = true ↔ j = w.toNat ∨ B.test b j = true := by
  -- the digit is at hand in a store with the same digits
  obtain ⟨c, hc, hlen, htest⟩ : ∃ c, (if B.length b ≤ w.toNat then B.grow b (w.toNat + 1) else b) =
      c ∧ w.toNat < B.length c ∧ ∀ j, B.test c j = B.test b j := by
    by_cases hle : B.length b ≤ w.toNat
    · exact ⟨_, if_pos hle, h.le_length_grow b (w.toNat + 1), h.test_grow b (w.toNat + 1)⟩
    · exact ⟨b, if_neg hle, Nat.lt_of_not_le hle, fun _ => rfl⟩
  obtain ⟨b', hput, hdigits⟩ := h.put_of_lt c w.toNat hlen
  refine ⟨b', ?_, fun j => ?_⟩
  · rw [BitStore.insert]
    simp only [hc, hput, htest, Option.map_some]
  · rw [hdigits, htest, Bool.or_eq_true, beq_iff_eq, or_comm]

/-- Beyond the capacity no number is a member. -/
theorem contains_eq (b : β) (w : UInt32) : B.contains b w = B.test b w.toNat := by
  rw [contains]
  cases htest : B.test b w.toNat with
  | false => exact Bool.and_false _
  | true => rw [decide_eq_true (h.lt_length htest), Bool.and_self]

/-- **A union has the members of both sets**, whichever has the larger capacity. -/
theorem test_union (b c : β) (i : ℕ) :
    B.test (B.union b c) i = true ↔ B.test b i = true ∨ B.test c i = true := by
  rw [union]
  by_cases hlt : B.length b < B.length c
  · rw [if_pos hlt, h.test_unionWith _ _ _ (h.le_length_grow b (B.length c)), h.test_grow,
      Bool.or_eq_true]
  · rw [if_neg hlt, h.test_unionWith _ _ _ (Nat.le_of_not_lt hlt), Bool.or_eq_true]

theorem intersects_iff (b c : β) :
    B.intersects b c = true ↔ ∃ i, B.test b i = true ∧ B.test c i = true := by
  simp only [intersects, List.isSome_head?, ← h.mem_intersection]
  exact ⟨List.exists_mem_of_ne_nil _, fun ⟨_, hi⟩ => List.ne_nil_of_mem hi⟩

end Lawful

/-! ### Lists of digits -/

/-- The store that is a list of digits. -/
def lists : BitStore (List Bool) where
  empty := []
  withCapacity n := List.replicate n false
  length := List.length
  grow b n := b ++ List.replicate (n - b.length) false
  put b i := if i < b.length then some (b.getD i false, b.set i true) else none
  test b i := b.getD i false
  isClear b := b.all (!·)
  countOnes b := (List.range b.length).countP fun i => b.getD i false
  ones b := (List.range b.length).filter fun i => b.getD i false
  unionWith b c :=
    (List.range (max b.length c.length)).map fun i => b.getD i false || c.getD i false
  intersection b c := (List.range b.length).filter fun i => b.getD i false && c.getD i false

theorem lt_length_of_getD {b : List Bool} {i : ℕ} (h : b.getD i false = true) : i < b.length :=
  Nat.lt_of_not_le fun hle => Bool.false_ne_true ((List.getD_eq_default b false hle).symm.trans h)

/-- **Lists of digits are a store.** -/
theorem lawful_lists : lists.Lawful where
  test_empty _ := rfl
  test_withCapacity n i := by
    show (List.replicate n false).getD i false = false
    rw [List.getD_eq_getElem?_getD, List.getElem?_getD_replicate_default_eq]
  test_of_length_le b i h := List.getD_eq_default b false h
  le_length_grow b n := by
    show n ≤ (b ++ List.replicate (n - b.length) false).length
    rw [List.length_append, List.length_replicate]
    omega
  test_grow b n i := by
    show (b ++ List.replicate (n - b.length) false).getD i false = b.getD i false
    rcases Nat.lt_or_ge i b.length with hi | hi
    · rw [List.getD_append _ _ _ _ hi]
    · rw [List.getD_append_right _ _ _ _ hi, List.getD_eq_default b false hi,
        List.getD_eq_getElem?_getD, List.getElem?_getD_replicate_default_eq]
  put_of_lt b i hi := by
    refine ⟨b.set i true, if_pos hi, fun j => ?_⟩
    show (b.set i true).getD j false = (b.getD j false || j == i)
    rw [List.getD_eq_getElem?_getD, List.getElem?_set]
    by_cases hij : i = j
    · subst hij
      have hi : i < b.length := hi
      simp [hi]
    · simp [hij, Ne.symm hij, List.getD_eq_getElem?_getD]
  isClear_iff b := by
    show b.all (!·) = true ↔ ∀ i, b.getD i false = false
    rw [List.all_eq_true]
    constructor
    · intro h i
      rcases Nat.lt_or_ge i b.length with hi | hi
      · rw [List.getD_eq_getElem b false hi]
        simpa using h _ (List.getElem_mem hi)
      · exact List.getD_eq_default b false hi
    · intro h d hd
      obtain ⟨i, hi, rfl⟩ := List.getElem_of_mem hd
      rw [← List.getD_eq_getElem b false hi, h i]
      rfl
  countOnes_eq b := List.countP_eq_length_filter
  mem_ones b i := by
    show i ∈ (List.range b.length).filter (fun i => b.getD i false) ↔ b.getD i false = true
    rw [List.mem_filter, List.mem_range]
    exact and_iff_right_of_imp lt_length_of_getD
  pairwise_ones b := List.pairwise_lt_range.filter _
  test_unionWith b c i _ := by
    show ((List.range (max b.length c.length)).map fun i => b.getD i false || c.getD i false).getD i
      false = (b.getD i false || c.getD i false)
    rw [List.getD_eq_getElem?_getD, List.getElem?_map]
    rcases Nat.lt_or_ge i (max b.length c.length) with hi | hi
    · rw [List.getElem?_range hi]
      rfl
    · rw [List.getD_eq_default b false (by omega), List.getD_eq_default c false (by omega),
        List.getElem?_eq_none (by simpa using hi)]
      rfl
  mem_intersection b c i := by
    show i ∈ (List.range b.length).filter (fun i => b.getD i false && c.getD i false) ↔ _
    rw [List.mem_filter, List.mem_range, Bool.and_eq_true]
    exact and_iff_right_of_imp fun h => lt_length_of_getD h.1

end BitStore

end FiniteState
