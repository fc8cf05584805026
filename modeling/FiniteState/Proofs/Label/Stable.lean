import FiniteState.Proofs.Label.Letters

/-!
# Naming twice is naming once

A pool lets the free letters of a list keep their names and hands out the least free labels
to the others.  When the names that result are named again, every letter among them is kept,
those included that were handed out in the first pass.  The labels with numbers are drawn
again, in the same order, and each comes out as it was: up to letters the same labels are in
use when it is drawn, and no letter is drawn in its place, as the letters before it in the
sequence are in use both times.

## Main results

* `LabelPool.take_eq_nth` — the label that is handed out depends only on the labels in use.
* `LabelPool.mem_reserveAll_iff` — the labels that are kept are the free letters.
* `LabelPool.names_names` — **naming the names again changes nothing**.
-/

namespace FiniteState.LabelPool

variable {pool pool' : LabelPool} {kept kept' labels : List Label} {l n : Label}

/-! ### What is handed out -/

/-- The label that is handed out is the one before which all labels are in use. -/
theorem take_eq_nth {i : ℕ} (hfree : Label.nth i ∉ pool.used)
    (hbelow : ∀ j < i, Label.nth j ∈ pool.used) : pool.take.1 = Label.nth i := by
  have hplace : pool.nextPlace = i := by
    rcases Nat.lt_trichotomy pool.nextPlace i with h | h | h
    · exact absurd (hbelow _ h) (take_notMem_used pool)
    · exact h
    · exact absurd (nth_mem_used_of_lt h) hfree
  show Label.nth pool.nextPlace = Label.nth i
  rw [hplace]

/-- A pool in which the same labels and some letters are in use hands out the same label, if
that is no letter. -/
theorem take_eq_take (hsub : pool.used ⊆ pool'.used)
    (hback : ∀ l ∈ pool'.used, l ∈ pool.used ∨ l.isLetter = true)
    (hnumbered : pool.take.1.isLetter = false) : pool'.take.1 = pool.take.1 := by
  refine take_eq_nth (i := pool.nextPlace) (fun hused => ?_) fun j hj => ?_
  · rcases hback _ hused with hused | hletter
    · exact take_notMem_used pool hused
    · exact Bool.false_ne_true (hnumbered.symm.trans hletter)
  · exact hsub (nth_mem_used_of_lt hj)

/-! ### What is kept -/

/-- The labels that are in use after some were claimed. -/
theorem mem_used_reserveAll_iff : l ∈ (pool.reserveAll labels).2.used ↔
    l ∈ pool.used ∨ l ∈ (pool.reserveAll labels).1 := by
  constructor
  · induction labels generalizing pool with
    | nil => exact .inl
    | cons m rest ih =>
      intro h
      rw [reserveAll_cons] at h ⊢
      rcases ih h with hused | hkept
      · cases hgrant : (pool.reserve m).1 with
        | true =>
          rw [(reserve_eq_true hgrant).2.2, used_exclude] at hused
          rcases List.mem_cons.1 hused with rfl | hused
          · exact .inr List.mem_cons_self
          · exact .inl hused
        | false =>
          rw [reserve_eq_false hgrant] at hused
          exact .inl hused
      · refine .inr ?_
        show l ∈ if (pool.reserve m).1 then _ else _
        split
        · exact List.mem_cons_of_mem m hkept
        · exact hkept
  · intro h
    rcases h with hused | hkept
    · exact mem_used_reserveAll hused
    · exact (of_mem_reserveAll hkept).2.2

/-- **The labels that are kept are the free letters of the list.** -/
theorem mem_reserveAll_iff : l ∈ (pool.reserveAll labels).1 ↔
    l ∈ labels ∧ l.isLetter = true ∧ l ∉ pool.used := by
  constructor
  · intro h
    obtain ⟨hletter, hfree, -⟩ := of_mem_reserveAll h
    exact ⟨(sublist_reserveAll labels pool).subset h, hletter, hfree⟩
  · rintro ⟨hmem, hletter, hfree⟩
    induction labels generalizing pool with
    | nil => exact absurd hmem List.not_mem_nil
    | cons m rest ih =>
      have hgrant : (pool.reserve l).1 = true := by
        rw [reserve, if_pos (by simp [hletter, hfree])]
      rw [reserveAll_cons]
      by_cases hlm : l = m
      · rw [← hlm, hgrant]
        exact List.mem_cons_self
      · -- whether the first label is claimed or not, this one is still free
        have hfree' : l ∉ (pool.reserve m).2.used := by
          cases hm : (pool.reserve m).1 with
          | true =>
            rw [(reserve_eq_true hm).2.2, used_exclude]
            exact fun h => (List.mem_cons.1 h).elim hlm hfree
          | false => rwa [reserve_eq_false hm]
        have hrest := ih (List.mem_of_ne_of_mem hlm hmem) hfree'
        show l ∈ if (pool.reserve m).1 then _ else _
        split
        · exact List.mem_cons_of_mem m hrest
        · exact hrest

/-! ### The second pass -/

/-- In a second pass, in which the letters among the names are kept, every name is named by
itself. -/
theorem nameAll_nameAll (hkept : ∀ l ∈ kept, l.isLetter = true)
    (hletters : ∀ n, (∃ l, (l, n) ∈ (nameAll kept labels pool).1) →
      (n ∈ kept' ↔ n.isLetter = true))
    (hused : kept' ⊆ pool'.used) (hsub : pool.used ⊆ pool'.used)
    (hback : ∀ l ∈ pool'.used, l ∈ pool.used ∨ l.isLetter = true) :
    (nameAll kept' ((nameAll kept labels pool).1.map Prod.snd) pool').1 =
      (nameAll kept labels pool).1.map fun e => (e.2, e.2) := by
  induction labels generalizing pool pool' with
  | nil => rfl
  | cons l rest ih =>
    rw [nameAll_cons] at hletters ⊢
    by_cases hl : kept.contains l = true
    · -- a label that was kept is a letter and is kept again
      rw [if_pos hl] at hletters ⊢
      have hl' : l ∈ kept' :=
        (hletters l ⟨l, List.mem_cons_self⟩).2 (hkept l (List.contains_iff_mem.1 hl))
      have hrest := ih (fun n ⟨m, hm⟩ => hletters n ⟨m, List.mem_cons_of_mem _ hm⟩) hused hsub hback
      rw [List.map_cons, nameAll_cons, if_pos (List.contains_iff_mem.2 hl'), hrest, List.map_cons]
    · rw [if_neg hl] at hletters ⊢
      have hfresh := hletters pool.take.1 ⟨l, List.mem_cons_self⟩
      have hrest : ∀ n, (∃ m, (m, n) ∈ (nameAll kept rest pool.take.2).1) →
          (n ∈ kept' ↔ n.isLetter = true) :=
        fun n ⟨m, hm⟩ => hletters n ⟨m, List.mem_cons_of_mem _ hm⟩
      rw [List.map_cons, nameAll_cons]
      by_cases hletter : pool.take.1.isLetter = true
      · -- a letter that was handed out is kept now, and was in use before the second pass
        have hmem := hfresh.2 hletter
        rw [if_pos (List.contains_iff_mem.2 hmem), List.map_cons,
          ih hrest hused (fun m hm => ?_) fun m hm => ?_]
        · rcases List.mem_cons.1 hm with rfl | hm
          · exact hused hmem
          · exact hsub hm
        · exact (hback m hm).imp (List.mem_cons_of_mem _) id
      · -- a label with a number is drawn again
        have hnotMem : ¬ kept'.contains pool.take.1 = true :=
          fun h => hletter (hfresh.1 (List.contains_iff_mem.1 h))
        have htake : pool'.take.1 = pool.take.1 :=
          take_eq_take hsub hback (Bool.eq_false_iff.2 hletter)
        rw [if_neg hnotMem, List.map_cons, htake, ih hrest (fun m hm => ?_) (fun m hm => ?_)
          fun m hm => ?_]
        · exact List.mem_cons_of_mem _ (hused hm)
        · rw [used_take] at hm ⊢
          rw [htake]
          exact List.cons_subset_cons _ hsub hm
        · rw [used_take, htake] at hm
          rcases List.mem_cons.1 hm with rfl | hm
          · exact .inl List.mem_cons_self
          · exact (hback m hm).imp (List.mem_cons_of_mem _) id

/-- A label that is kept names itself. -/
theorem mem_nameAll_of_mem (hl : l ∈ labels) (hkept : l ∈ kept) :
    (l, l) ∈ (nameAll kept labels pool).1 := by
  induction labels generalizing pool with
  | nil => exact absurd hl List.not_mem_nil
  | cons m rest ih =>
    rw [nameAll_cons]
    by_cases hlm : l = m
    · subst hlm
      rw [if_pos (List.contains_iff_mem.2 hkept)]
      exact List.mem_cons_self
    · have hrest := List.mem_of_ne_of_mem hlm hl
      split
      · exact List.mem_cons_of_mem _ (ih hrest)
      · exact List.mem_cons_of_mem _ (ih hrest)

/-- **Naming the names again changes nothing.** -/
theorem names_names (labels : List Label) :
    (full.names ((full.names labels).1.map Prod.snd)).1 =
      (full.names labels).1.map fun e => (e.2, e.2) := by
  refine nameAll_nameAll (fun l hl => (of_mem_reserveAll hl).1) (fun n hn => ?_)
    (kept_subset_used full _) (fun l hl => ?_) fun l hl => ?_
  · -- no label is in use before the second pass
    obtain ⟨l, hl⟩ := hn
    have hmem : n ∈ (full.names labels).1.map Prod.snd := List.mem_map.2 ⟨(l, n), hl, rfl⟩
    rw [mem_reserveAll_iff, and_iff_right hmem]
    exact and_iff_left List.not_mem_nil
  · -- the letters that were kept are in use both times
    have hkept := (mem_used_reserveAll_iff.1 hl).resolve_left List.not_mem_nil
    obtain ⟨hmem, hletter, -⟩ := mem_reserveAll_iff.1 hkept
    refine kept_subset_used full _ (mem_reserveAll_iff.2 ⟨?_, hletter, List.not_mem_nil⟩)
    exact List.mem_map.2 ⟨(l, l), mem_nameAll_of_mem hmem hkept, rfl⟩
  · -- and besides these only letters
    have hkept := (mem_used_reserveAll_iff.1 hl).resolve_left List.not_mem_nil
    exact .inr (of_mem_reserveAll hkept).1

end FiniteState.LabelPool
