import FiniteState.Proofs.Label.Fresh

/-!
# Few names are single letters

The sequence of fresh labels begins with the 26 letters.  A pool hands out the first
label of the sequence that is free, so it hands out a letter as long as fewer labels
are in use than there are letters.  So up to 26 labels get single letters as their
names.

## Main results

* `Label.eq_ofChar_of_isLetter`, `Label.isLetter_iff` — a single letter is the label of its
  first character.
* `LabelPool.nth_mem_used_of_lt` — the labels before the one that is handed out are in
  use.
* `LabelPool.isLetter_take` — **a pool with few labels in use hands out a letter**.
* `LabelPool.isLetter_of_mem_names` — **few labels are named by letters**.
-/

namespace FiniteState

namespace Label

variable {l : Label}

theorem isLetter_ofChar {c : Char} : (ofChar c).isLetter = c.isUpper := by
  rw [isLetter, toList_ofChar]

/-- The labels before the 27th are letters. -/
theorem isLetter_nth {i : ℕ} (hi : i < 26) : (nth i).isLetter = true := by
  rw [nth, if_pos hi, isLetter_ofChar]
  exact isUpper_letter i

/-- A single letter is the label of its first character. -/
theorem eq_ofChar_of_isLetter (h : l.isLetter = true) :
    ∃ c, c.isUpper = true ∧ l = ofChar c := by
  unfold isLetter at h
  split at h
  · rename_i c hc
    refine ⟨c, h, ?_⟩
    rw [ofChar, ← hc, String.ofList_toList]
  · cases h

theorem isUpper_iff {c : Char} : c.isUpper = true ↔ 'A' ≤ c ∧ c ≤ 'Z' := decide_eq_true_iff

/-- The single letters are the labels of the characters from `A` to `Z`. -/
theorem isLetter_iff : l.isLetter = true ↔ ∃ c, 'A' ≤ c ∧ c ≤ 'Z' ∧ l = ofChar c := by
  constructor
  · intro h
    obtain ⟨c, hc, rfl⟩ := eq_ofChar_of_isLetter h
    exact ⟨c, (isUpper_iff.1 hc).1, (isUpper_iff.1 hc).2, rfl⟩
  · rintro ⟨c, hA, hZ, rfl⟩
    rw [isLetter_ofChar]
    exact isUpper_iff.2 ⟨hA, hZ⟩

end Label

namespace LabelPool

variable {pool : LabelPool} {kept labels : List Label} {l n : Label}

/-- Every label before the one that is handed out is in use. -/
theorem nth_mem_used_of_lt {i : ℕ} (hi : i < pool.nextPlace) : Label.nth i ∈ pool.used := by
  rcases Nat.lt_or_ge i pool.cursor with h | h
  · exact pool.used_below i h
  · exact used_of_lt_firstFree h hi

/-- **A pool with fewer labels in use than there are letters hands out a letter.** -/
theorem isLetter_take (h : pool.used.length < 26) : pool.take.1.isLetter = true := by
  refine Label.isLetter_nth ?_
  by_contra hplace
  -- otherwise all 26 letters are in use
  have hnd : ((List.range 26).map Label.nth).Nodup := List.nodup_range.map Label.nth_injective
  have hsub : (List.range 26).map Label.nth ⊆ pool.used := by
    intro n hn
    obtain ⟨i, hi, rfl⟩ := List.mem_map.1 hn
    have hi := List.mem_range.1 hi
    exact nth_mem_used_of_lt (by omega)
  have hlen := (List.subperm_of_subset hnd hsub).length_le
  rw [List.length_map, List.length_range] at hlen
  omega

/-! ### The number of labels in use -/

theorem length_used_excluding (labels : List Label) :
    (excluding labels).used.length = labels.length := by
  have key : ∀ (labels : List Label) (pool : LabelPool),
      (labels.foldl exclude pool).used.length = labels.length + pool.used.length := by
    intro labels
    induction labels with
    | nil => simp
    | cons l labels ih =>
      intro pool
      rw [List.foldl_cons, ih, used_exclude, List.length_cons, List.length_cons]
      omega
  exact key labels full

theorem length_used_reserveAll (labels : List Label) (pool : LabelPool) :
    (pool.reserveAll labels).2.used.length =
      (pool.reserveAll labels).1.length + pool.used.length := by
  induction labels generalizing pool with
  | nil => simp [reserveAll]
  | cons l rest ih =>
    rw [reserveAll_cons]
    cases hgrant : (pool.reserve l).1 with
    | true =>
      have := ih (pool.reserve l).2
      rw [(reserve_eq_true hgrant).2.2, used_exclude] at this
      simp only [(reserve_eq_true hgrant).2.2, if_true, List.length_cons] at this ⊢
      omega
    | false =>
      have := ih (pool.reserve l).2
      rw [reserve_eq_false hgrant] at this
      simpa [reserve_eq_false hgrant] using this

/-- The labels that are claimed stand in the list, in the same order. -/
theorem sublist_reserveAll (labels : List Label) (pool : LabelPool) :
    (pool.reserveAll labels).1.Sublist labels := by
  induction labels generalizing pool with
  | nil => exact .slnil
  | cons l rest ih =>
    rw [reserveAll_cons]
    show (if _ then _ else _ : List Label).Sublist _
    split
    · exact (ih _).cons_cons l
    · exact (ih _).cons l

/-- While the labels in use and the labels still to be named are few, the names are
letters. -/
theorem isLetter_of_mem_nameAll (hkept : ∀ l ∈ kept, l.isLetter = true)
    (hfew : pool.used.length + (labels.filter fun l => !kept.contains l).length ≤ 26)
    (h : (l, n) ∈ (nameAll kept labels pool).1) : n.isLetter = true := by
  induction labels generalizing pool with
  | nil => exact absurd h List.not_mem_nil
  | cons m rest ih =>
    rw [nameAll_cons] at h
    rw [List.filter_cons] at hfew
    split at h
    · rename_i hm
      rw [hm] at hfew
      rcases List.mem_cons.1 h with heq | h
      · obtain ⟨rfl, rfl⟩ := Prod.mk.inj heq
        exact hkept n (List.contains_iff_mem.1 hm)
      · exact ih hfew h
    · rename_i hm
      rw [if_pos (by simpa using hm), List.length_cons] at hfew
      rcases List.mem_cons.1 h with heq | h
      · obtain ⟨rfl, rfl⟩ := Prod.mk.inj heq
        exact isLetter_take (by omega)
      · refine ih ?_ h
        rw [used_take, List.length_cons]
        omega

/-- **Up to 26 labels are named by letters.** -/
theorem isLetter_of_mem_names (hnd : labels.Nodup) (hfew : labels.length ≤ 26)
    (h : (l, n) ∈ (full.names labels).1) : n.isLetter = true := by
  refine isLetter_of_mem_nameAll (fun l hl => (of_mem_reserveAll hl).1) ?_ h
  rw [length_used_reserveAll]
  have := (sublist_reserveAll labels full).length_add_length_filter_le hnd
  show (full.reserveAll labels).1.length + 0 + _ ≤ 26
  omega

end LabelPool

end FiniteState
