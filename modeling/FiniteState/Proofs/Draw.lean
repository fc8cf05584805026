import FiniteState.Draw
import Mathlib.Algebra.Order.Ring.Nat

/-!
# What can be drawn

A choice below a bound is below the bound, and every number below the bound can be drawn:
among the words that are multiplied by the bound, the products that belong to a number
are a stretch as long as the word size.  The bound is not longer than the stretch, so a
product falls into its first part, where it is not drawn again.

## Main results

* `Draws.choose_lt` — **what is drawn is below the bound**.
* `Draws.exists_choose_eq` — **every number below the bound is drawn with some word**.
-/

namespace FiniteState.Draws

variable {width bound i : ℕ}

/-- The number of words of a width is positive. -/
theorem size_pos (width : ℕ) : 0 < 1 <<< width := by
  rw [Nat.one_shiftLeft]
  exact Nat.two_pow_pos width

/-- The upper part of a number is the quotient by the number of words. -/
theorem shiftRight_eq_div (n width : ℕ) : n >>> width = n / (1 <<< width) := by
  rw [Nat.shiftRight_eq_div_pow, Nat.one_shiftLeft]

/-- **What is drawn is below the bound.** -/
theorem choose_lt (width : ℕ) (hbound : 0 < bound) (draws : Draws) :
    (choose width bound draws).1 < bound := by
  induction draws with
  | nil => exact hbound
  | cons word rest ih =>
    rw [choose]
    split
    · rw [shiftRight_eq_div, Nat.div_lt_iff_lt_mul (size_pos width), Nat.mul_comm bound]
      exact Nat.mul_lt_mul_of_pos_right (Nat.mod_lt _ (size_pos width)) hbound
    · exact ih

/-- The smallest product that reaches the stretch of a number lies in the first part of it. -/
theorem exists_product {size : ℕ} (hbound : bound ≤ size) (hi : i < bound) :
    ∃ n < size, n * bound / size = i ∧ n * bound % size ≤ bound - 1 := by
  have hpos : 0 < bound := by omega
  -- the stretch begins at `size * i`, and the factor is the quotient, rounded up
  have hfactor : ∃ n r, n * bound = size * i + r ∧ r ≤ bound - 1 := by
    refine ⟨(size * i + (bound - 1)) / bound, _, (Nat.add_sub_cancel' ?_).symm, ?_⟩
    · have hlt := Nat.lt_div_mul_add (a := size * i + (bound - 1)) hpos
      omega
    · have hle := Nat.div_mul_le_self (size * i + (bound - 1)) bound
      omega
  obtain ⟨n, r, hproduct, hr⟩ := hfactor
  have hlt : r < size := by omega
  refine ⟨n, ?_, ?_, ?_⟩
  · refine Nat.lt_of_mul_lt_mul_right (a := bound) ?_
    calc n * bound = size * i + r := hproduct
      _ < size * i + size := by omega
      _ = size * (i + 1) := (Nat.mul_succ size i).symm
      _ ≤ size * bound := Nat.mul_le_mul_left size hi
  · rw [hproduct, Nat.mul_add_div (by omega), Nat.div_eq_of_lt hlt, Nat.add_zero]
  · rw [hproduct, Nat.mul_add_mod, Nat.mod_eq_of_lt hlt]
    exact hr

/-- The first part of every stretch is acceptable. -/
theorem pred_le_zone (width bound : ℕ) : bound - 1 ≤ zone width bound := by
  refine Nat.sub_le_sub_right ?_ 1
  rw [Nat.shiftLeft_eq]
  exact Nat.le_mul_of_pos_right bound (Nat.two_pow_pos _)

/-- **Every number below the bound is drawn with some word.** -/
theorem exists_choose_eq (hwidth : width ≤ 64) (hbound : bound ≤ 1 <<< width) (hi : i < bound) :
    ∃ word, ∀ rest, choose width bound (word :: rest) = (i, rest) := by
  obtain ⟨n, hn, hquotient, hremainder⟩ := exists_product hbound hi
  refine ⟨UInt64.ofNat n, fun rest => ?_⟩
  have hword : (UInt64.ofNat n).toNat = n := by
    refine UInt64.toNat_ofNat_of_lt' (Nat.lt_of_lt_of_le hn ?_)
    rw [Nat.one_shiftLeft]
    exact Nat.pow_le_pow_right (by decide) hwidth
  have hzone := Nat.le_trans hremainder (pred_le_zone width bound)
  rw [choose, hword, Nat.mod_eq_of_lt hn, if_pos hzone, shiftRight_eq_div, hquotient]

end FiniteState.Draws
