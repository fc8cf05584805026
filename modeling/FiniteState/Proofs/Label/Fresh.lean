import Mathlib.Logic.Function.Iterate
import FiniteState.Label.Pool
import FiniteState.Label.Primed
import FiniteState.Proofs.List

/-!
# Fresh labels are fresh

Two supplies of names tell states apart: the pool, which hands out the least free
label of a fixed sequence, and the primes, which are appended to a description
until it differs from the labels taken.  Both searches are bounded, and both
bounds are justified by the same pigeonhole argument.

## Main results

* `Label.nth_injective` — the sequence of fresh labels has no repetitions.
* `LabelPool.take_notMem_used` — **the pool never hands out a label in use.**
* `LabelPool.map_fst_names`, `LabelPool.nodup_map_snd_names` — the new names of a
  list of labels are as many and all different.
* `LabelPool.of_mem_names`, `LabelPool.mem_used_of_mem_names` — they were not in
  use before, and they are afterwards.
* `Label.primed_notMem` — a primed label differs from the labels taken.
* `Label.map_fst_distinct`, `Label.nodup_map_snd_distinct` — the labels of a list
  of keys are as many and all different.
-/

namespace FiniteState

/-! ### The sequence of fresh labels -/

namespace Label

@[simp] theorem toList_ofChar (c : Char) : (ofChar c).toList = [c] := by
  simp [ofChar]

theorem ofChar_injective : Function.Injective ofChar := by
  intro c d h
  simpa using congrArg String.toList h

theorem mod_eq_of_letter_eq {i j : ℕ} (h : letter i = letter j) : i % 26 = j % 26 := by
  have key : ∀ a < 26, ∀ b < 26, Char.ofNat (65 + a) = Char.ofNat (65 + b) → a = b := by decide
  exact key _ (Nat.mod_lt i (by decide)) _ (Nat.mod_lt j (by decide)) h

theorem isUpper_letter (i : ℕ) : (letter i).isUpper = true := by
  have key : ∀ a < 26, (Char.ofNat (65 + a)).isUpper = true := by decide
  exact key _ (Nat.mod_lt i (by decide))

/-- A label of the sequence is a letter, followed by a number from the second
round on. -/
theorem toList_nth (i : ℕ) :
    (nth i).toList = letter i :: if i < 26 then [] else (toString (i / 26)).toList := by
  rw [nth]
  split
  · rw [toList_ofChar]
  · rw [String.toList_append, toList_ofChar, List.singleton_append]

theorem toList_toString (n : ℕ) : (toString n).toList = Nat.toDigits 10 n := Nat.toList_repr

theorem toList_toString_ne_nil (n : ℕ) : (toString n).toList ≠ [] := by
  rw [toList_toString]
  exact Nat.toDigits_ne_nil

/-- Different numbers have different texts, since the digits read back. -/
theorem toList_toString_inj {m n : ℕ} (h : (toString m).toList = (toString n).toList) : m = n := by
  rw [toList_toString, toList_toString] at h
  rw [← @Nat.ofDigitChars_ten_toDigits m, h, Nat.ofDigitChars_ten_toDigits]

/-- **The sequence of fresh labels has no repetitions.** -/
theorem nth_injective : Function.Injective nth := by
  intro i j h
  have h := congrArg String.toList h
  rw [toList_nth, toList_nth, List.cons.injEq] at h
  obtain ⟨hletter, hnumber⟩ := h
  have hmod := mod_eq_of_letter_eq hletter
  -- the letter gives the remainder and the number gives the quotient
  by_cases hi : i < 26 <;> by_cases hj : j < 26
  · omega
  · rw [if_pos hi, if_neg hj] at hnumber
    exact absurd hnumber.symm (toList_toString_ne_nil _)
  · rw [if_neg hi, if_pos hj] at hnumber
    exact absurd hnumber (toList_toString_ne_nil _)
  · rw [if_neg hi, if_neg hj] at hnumber
    have := toList_toString_inj hnumber
    omega

end Label

/-! ### The least free label -/

namespace LabelPool

/-- If a free label lies within the bound of the search, the search ends at one. -/
theorem firstFree_notMem {used : List Label} {fuel i j : ℕ} (hij : i ≤ j) (hj : j < i + fuel)
    (hfree : Label.nth j ∉ used) : Label.nth (firstFree used fuel i) ∉ used := by
  -- the search passes the labels in use one by one, so it cannot pass the free one
  induction fuel generalizing i with
  | zero => omega
  | succ fuel ih =>
    rw [firstFree]
    split
    · rename_i hused
      have hne : i ≠ j := by
        rintro rfl
        exact hfree (List.contains_iff_mem.1 hused)
      exact ih (by omega) (by omega)
    · rename_i hunused
      exact fun hmem => hunused (List.contains_iff_mem.2 hmem)

/-- **The pool never hands out a label in use.** -/
theorem take_notMem_used (pool : LabelPool) : pool.take.1 ∉ pool.used := by
  have hinj : Function.Injective fun i => Label.nth (pool.cursor + i) := fun i j h =>
    Nat.add_left_cancel (Label.nth_injective h)
  obtain ⟨i, hi, hfree⟩ := List.exists_notMem_of_injective hinj pool.used
  exact firstFree_notMem (Nat.le_add_right _ i) (by omega) hfree

@[simp] theorem used_take (pool : LabelPool) : pool.take.2.used = pool.take.1 :: pool.used := rfl

@[simp] theorem used_exclude (pool : LabelPool) (l : Label) :
    (pool.exclude l).used = l :: pool.used := rfl

theorem mem_used_excluding {labels : List Label} {l : Label} :
    l ∈ (excluding labels).used ↔ l ∈ labels := by
  have key : ∀ (labels : List Label) (pool : LabelPool),
      l ∈ (labels.foldl exclude pool).used ↔ l ∈ labels ∨ l ∈ pool.used := by
    intro labels
    induction labels with
    | nil => simp
    | cons m labels ih =>
      intro pool
      rw [List.foldl_cons, ih, used_exclude, List.mem_cons, List.mem_cons]
      tauto
  rw [excluding, key]
  exact or_iff_left List.not_mem_nil

/-! ### Claiming letters -/

theorem reserve_eq_true {pool : LabelPool} {l : Label} (h : (pool.reserve l).1 = true) :
    l.isLetter = true ∧ l ∉ pool.used ∧ (pool.reserve l).2 = pool.exclude l := by
  unfold reserve at h ⊢
  split
  · rename_i hfree
    rw [Bool.and_eq_true, Bool.not_eq_true', List.contains_eq_mem, decide_eq_false_iff_not] at hfree
    exact ⟨hfree.1, hfree.2, rfl⟩
  · rename_i hfree
    rw [if_neg hfree] at h
    exact absurd h (by simp)

theorem reserve_eq_false {pool : LabelPool} {l : Label} (h : (pool.reserve l).1 = false) :
    (pool.reserve l).2 = pool := by
  unfold reserve at h ⊢
  split
  · rename_i hfree
    rw [if_pos hfree] at h
    exact absurd h (by simp)
  · rfl

theorem mem_used_reserve {pool : LabelPool} {l m : Label} (h : m ∈ pool.used) :
    m ∈ (pool.reserve l).2.used := by
  cases hgrant : (pool.reserve l).1 with
  | true =>
    rw [(reserve_eq_true hgrant).2.2]
    exact List.mem_cons_of_mem _ h
  | false =>
    rw [reserve_eq_false hgrant]
    exact h

theorem reserveAll_cons (l : Label) (rest : List Label) (pool : LabelPool) :
    pool.reserveAll (l :: rest) =
      (if (pool.reserve l).1 then l :: ((pool.reserve l).2.reserveAll rest).1
        else ((pool.reserve l).2.reserveAll rest).1,
        ((pool.reserve l).2.reserveAll rest).2) := rfl

theorem mem_used_reserveAll {labels : List Label} {pool : LabelPool} {l : Label}
    (h : l ∈ pool.used) : l ∈ (pool.reserveAll labels).2.used := by
  induction labels generalizing pool with
  | nil => exact h
  | cons m rest ih =>
    rw [reserveAll_cons]
    exact ih (mem_used_reserve h)

/-- The labels that are claimed are letters that were free, and they are in use
afterwards. -/
theorem of_mem_reserveAll {labels : List Label} {pool : LabelPool} {l : Label}
    (h : l ∈ (pool.reserveAll labels).1) :
    l.isLetter = true ∧ l ∉ pool.used ∧ l ∈ (pool.reserveAll labels).2.used := by
  induction labels generalizing pool with
  | nil => exact absurd h List.not_mem_nil
  | cons m rest ih =>
    -- a label that is claimed later was free from the beginning
    have hrest : l ∈ ((pool.reserve m).2.reserveAll rest).1 →
        l.isLetter = true ∧ l ∉ pool.used ∧ l ∈ (pool.reserveAll (m :: rest)).2.used := by
      intro h
      obtain ⟨hletter, hfree, hused⟩ := ih h
      exact ⟨hletter, fun hmem => hfree (mem_used_reserve hmem), hused⟩
    rw [reserveAll_cons] at h
    cases hgrant : (pool.reserve m).1 with
    | false =>
      rw [hgrant] at h
      exact hrest h
    | true =>
      rw [hgrant] at h
      rcases List.mem_cons.1 h with rfl | h
      · obtain ⟨hletter, hfree, hpool⟩ := reserve_eq_true hgrant
        refine ⟨hletter, hfree, ?_⟩
        rw [reserveAll_cons, hpool]
        exact mem_used_reserveAll List.mem_cons_self
      · exact hrest h

/-! ### Naming a list -/

theorem nameAll_cons (kept : List Label) (l : Label) (rest : List Label) (pool : LabelPool) :
    nameAll kept (l :: rest) pool =
      if kept.contains l then
        ((l, l) :: (nameAll kept rest pool).1, (nameAll kept rest pool).2)
      else
        ((l, pool.take.1) :: (nameAll kept rest pool.take.2).1,
          (nameAll kept rest pool.take.2).2) := rfl

theorem map_fst_nameAll (kept labels : List Label) (pool : LabelPool) :
    (nameAll kept labels pool).1.map Prod.fst = labels := by
  induction labels generalizing pool with
  | nil => rfl
  | cons l rest ih =>
    rw [nameAll_cons]
    split <;> rw [List.map_cons, ih]

theorem mem_used_nameAll {kept labels : List Label} {pool : LabelPool} {l : Label}
    (h : l ∈ pool.used) : l ∈ (nameAll kept labels pool).2.used := by
  induction labels generalizing pool with
  | nil => exact h
  | cons m rest ih =>
    rw [nameAll_cons]
    split
    · exact ih h
    · exact ih (List.mem_cons_of_mem _ h)

/-- A name is the label itself, if that was kept, and a label of the sequence that
was free otherwise. -/
theorem of_mem_nameAll {kept labels : List Label} {pool : LabelPool} {l n : Label}
    (h : (l, n) ∈ (nameAll kept labels pool).1) :
    (l ∈ kept ∧ n = l) ∨ (n ∉ pool.used ∧ ∃ i, n = Label.nth i) := by
  induction labels generalizing pool with
  | nil => exact absurd h List.not_mem_nil
  | cons m rest ih =>
    rw [nameAll_cons] at h
    split at h
    · rename_i hkept
      rcases List.mem_cons.1 h with heq | h
      · obtain ⟨rfl, rfl⟩ := Prod.mk.inj heq
        exact .inl ⟨List.contains_iff_mem.1 hkept, rfl⟩
      · exact ih h
    · rcases List.mem_cons.1 h with heq | h
      · obtain ⟨rfl, rfl⟩ := Prod.mk.inj heq
        exact .inr ⟨take_notMem_used pool, _, rfl⟩
      · refine (ih h).imp id fun ⟨hfree, hseq⟩ => ⟨fun hmem => hfree ?_, hseq⟩
        exact List.mem_cons_of_mem _ hmem

theorem mem_used_of_mem_nameAll {kept labels : List Label} {pool : LabelPool} {l n : Label}
    (hkept : kept ⊆ pool.used) (h : (l, n) ∈ (nameAll kept labels pool).1) :
    n ∈ (nameAll kept labels pool).2.used := by
  induction labels generalizing pool with
  | nil => exact absurd h List.not_mem_nil
  | cons m rest ih =>
    rw [nameAll_cons] at h ⊢
    split
    · rename_i hm
      rw [if_pos hm] at h
      rcases List.mem_cons.1 h with heq | h
      · obtain ⟨rfl, rfl⟩ := Prod.mk.inj heq
        exact mem_used_nameAll (hkept (List.contains_iff_mem.1 hm))
      · exact ih hkept h
    · rename_i hm
      rw [if_neg hm] at h
      rcases List.mem_cons.1 h with heq | h
      · obtain ⟨rfl, rfl⟩ := Prod.mk.inj heq
        exact mem_used_nameAll List.mem_cons_self
      · exact ih (fun x hx => List.mem_cons_of_mem _ (hkept hx)) h

/-- The names of different labels are different.  A kept label is in use when the
fresh ones are drawn, so no fresh name is a kept one. -/
theorem nodup_map_snd_nameAll {kept labels : List Label} {pool : LabelPool}
    (hnd : labels.Nodup) (hkept : kept ⊆ pool.used) :
    ((nameAll kept labels pool).1.map Prod.snd).Nodup := by
  induction labels generalizing pool with
  | nil => exact List.nodup_nil
  | cons l rest ih =>
    rw [List.nodup_cons] at hnd
    rw [nameAll_cons]
    split
    · rename_i hl
      rw [List.map_cons, List.nodup_cons]
      refine ⟨fun hmem => ?_, ih hnd.2 hkept⟩
      obtain ⟨⟨m, n⟩, hmn, rfl⟩ := List.mem_map.1 hmem
      rcases of_mem_nameAll hmn with ⟨-, heq⟩ | ⟨hfree, -⟩
      · -- the later label would be the same one
        have heq : n = m := heq
        subst heq
        apply hnd.1
        rw [← map_fst_nameAll kept rest pool]
        exact List.mem_map.2 ⟨_, hmn, rfl⟩
      · exact hfree (hkept (List.contains_iff_mem.1 hl))
    · -- the fresh name is in use from now on, so it is neither kept nor handed out again
      rw [List.map_cons, List.nodup_cons]
      refine ⟨fun hmem => ?_, ih hnd.2 fun x hx => List.mem_cons_of_mem _ (hkept hx)⟩
      obtain ⟨⟨m, n⟩, hmn, heq⟩ := List.mem_map.1 hmem
      have heq : n = pool.take.1 := heq
      subst heq
      rcases of_mem_nameAll hmn with ⟨hm, heq⟩ | ⟨hfree, -⟩
      · exact take_notMem_used pool (heq ▸ hkept hm)
      · exact hfree List.mem_cons_self

/-! ### New names -/

section Names

variable (pool : LabelPool) (labels : List Label)

theorem map_fst_names : (pool.names labels).1.map Prod.fst = labels := map_fst_nameAll _ _ _

theorem kept_subset_used : (pool.reserveAll labels).1 ⊆ (pool.reserveAll labels).2.used :=
  fun _ h => (of_mem_reserveAll h).2.2

variable {pool labels}

/-- **The new names of different labels are different.** -/
theorem nodup_map_snd_names (hnd : labels.Nodup) : ((pool.names labels).1.map Prod.snd).Nodup :=
  nodup_map_snd_nameAll hnd (kept_subset_used pool labels)

/-- A new name is a letter or a label of the sequence, and it was not in use. -/
theorem of_mem_names {l n : Label} (h : (l, n) ∈ (pool.names labels).1) :
    n ∉ pool.used ∧ (n.isLetter = true ∨ ∃ i, n = Label.nth i) := by
  rcases of_mem_nameAll h with ⟨hkept, rfl⟩ | ⟨hfree, hseq⟩
  · obtain ⟨hletter, hunused, -⟩ := of_mem_reserveAll hkept
    exact ⟨hunused, .inl hletter⟩
  · exact ⟨fun hmem => hfree (mem_used_reserveAll hmem), .inr hseq⟩

theorem mem_used_of_mem_names {l n : Label} (h : (l, n) ∈ (pool.names labels).1) :
    n ∈ (pool.names labels).2.used :=
  mem_used_of_mem_nameAll (kept_subset_used pool labels) h

theorem mem_used_names {l : Label} (h : l ∈ pool.used) : l ∈ (pool.names labels).2.used :=
  mem_used_nameAll (mem_used_reserveAll h)

end Names

end LabelPool

/-! ### Primes -/

namespace Label

theorem length_iterate_prime (i : ℕ) (l : Label) : ((· ++ "'")^[i] l).length = l.length + i := by
  induction i generalizing l with
  | zero => rfl
  | succ i ih =>
    rw [Function.iterate_succ_apply, ih, String.length_append]
    show l.length + 1 + i = l.length + (i + 1)
    omega

/-- If few enough primes lead out of the labels taken, so does the search. -/
theorem addPrimes_notMem {taken : List Label} {fuel i : ℕ} {l : Label} (hi : i ≤ fuel)
    (hfree : (· ++ "'")^[i] l ∉ taken) : addPrimes taken fuel l ∉ taken := by
  induction fuel generalizing i l with
  | zero =>
    obtain rfl : i = 0 := Nat.le_zero.1 hi
    exact hfree
  | succ fuel ih =>
    rw [addPrimes]
    split
    · rename_i htaken
      cases i with
      | zero => exact absurd (List.contains_iff_mem.1 htaken) hfree
      | succ i => exact ih (Nat.le_of_succ_le_succ hi) hfree
    · rename_i hfree
      exact fun hmem => hfree (List.contains_iff_mem.2 hmem)

/-- **A primed label differs from the labels taken.** -/
theorem primed_notMem (taken : List Label) (l : Label) : primed taken l ∉ taken := by
  -- with more primes a label is longer
  have hinj : Function.Injective fun i => (· ++ "'")^[i] l := by
    intro i j h
    have := congrArg String.length h
    simp only [length_iterate_prime] at this
    omega
  obtain ⟨i, hi, hfree⟩ := List.exists_notMem_of_injective hinj taken
  exact addPrimes_notMem hi hfree

section Distinct

variable {κ : Type} (describe : κ → Label)

theorem map_fst_distinctFrom (taken : List Label) (keys : List κ) :
    (distinctFrom describe taken keys).map Prod.fst = keys := by
  induction keys generalizing taken with
  | nil => rfl
  | cons k keys ih => rw [distinctFrom, List.map_cons, ih]

theorem notMem_taken_of_mem_distinctFrom {taken : List Label} {keys : List κ} {k : κ} {l : Label}
    (h : (k, l) ∈ distinctFrom describe taken keys) : l ∉ taken := by
  induction keys generalizing taken with
  | nil => exact absurd h List.not_mem_nil
  | cons k' keys ih =>
    rw [distinctFrom] at h
    rcases List.mem_cons.1 h with heq | h
    · obtain ⟨rfl, rfl⟩ := Prod.mk.inj heq
      exact primed_notMem taken _
    · exact fun hmem => ih h (List.mem_cons_of_mem _ hmem)

theorem nodup_map_snd_distinctFrom (taken : List Label) (keys : List κ) :
    ((distinctFrom describe taken keys).map Prod.snd).Nodup := by
  induction keys generalizing taken with
  | nil => exact List.nodup_nil
  | cons k keys ih =>
    rw [distinctFrom, List.map_cons, List.nodup_cons]
    refine ⟨fun hmem => ?_, ih _⟩
    obtain ⟨⟨k', l⟩, hkl, heq⟩ := List.mem_map.1 hmem
    have heq : l = primed taken (describe k) := heq
    subst heq
    exact notMem_taken_of_mem_distinctFrom describe hkl List.mem_cons_self

theorem map_fst_distinct (keys : List κ) : (distinct describe keys).map Prod.fst = keys :=
  map_fst_distinctFrom describe [] keys

/-- **The labels of different keys are different**, whatever their descriptions. -/
theorem nodup_map_snd_distinct (keys : List κ) :
    ((distinct describe keys).map Prod.snd).Nodup :=
  nodup_map_snd_distinctFrom describe [] keys

end Distinct

end Label

end FiniteState
