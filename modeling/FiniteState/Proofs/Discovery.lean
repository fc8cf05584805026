import FiniteState.Proofs.Traversal

/-!
# The order of discovery

An exploration lists the places in the order in which it discovers them.  The constructions
rely on more of this order than that it is some order: it has to come out again when the
places have got other names, when places that lead only out have been left out, and when
more rounds are allowed than are needed.

## Main results

* `explore_rounds` — **the order does not depend on the number of rounds**, if these suffice.
* `explore_map` — **places that correspond are discovered in the same order**.
* `explore_filter` — **without the places that lead only out, the others are discovered in
  the same order**.
-/

namespace FiniteState

variable {α β : Type} [DecidableEq α] [DecidableEq β] {next : α → List α}
  {found frontier places : List α}

/-- Nothing is discovered from an empty frontier. -/
theorem exploreFrom_nil (next : α → List α) (rounds : ℕ) (found : List α) :
    exploreFrom next rounds found [] = found := by
  cases rounds <;> rfl

/-! ### The number of rounds -/

/-- When the rounds suffice, more of them find nothing more. -/
theorem exploreFrom_add {U : List α} (hclosed : ∀ x ∈ U, next x ⊆ U) (more : ℕ)
    {rounds : ℕ} (hnd : found.Nodup) (hsub : found ⊆ U) (hfrontier : frontier ⊆ found)
    (hlen : U.length ≤ found.length + rounds) :
    exploreFrom next (rounds + more) found frontier = exploreFrom next rounds found frontier := by
  induction rounds generalizing found frontier with
  | zero =>
    -- everything is found already
    have hfresh : freshSuccessors next found frontier = [] := by
      rw [List.eq_nil_iff_forall_not_mem]
      intro y hy
      obtain ⟨⟨x, hx, hxy⟩, hnew⟩ := mem_freshSuccessors.1 hy
      exact hnew (hnd.mem_of_length_le hsub hlen (hclosed x (hsub (hfrontier hx)) hxy))
    cases more with
    | zero => rfl
    | succ more =>
      rw [Nat.zero_add]
      show (if (freshSuccessors next found frontier).isEmpty then found else _) = found
      rw [hfresh]
      rfl
  | succ rounds ih =>
    rw [Nat.succ_add, exploreFrom, exploreFrom]
    by_cases hfresh : (freshSuccessors next found frontier).isEmpty = true
    · rw [if_pos hfresh, if_pos hfresh]
    · rw [if_neg hfresh, if_neg hfresh]
      have hpos : 0 < (freshSuccessors next found frontier).length :=
        List.length_pos_iff.2 fun h => hfresh (List.isEmpty_iff.2 h)
      refine ih (nodup_append_freshSuccessors hnd) (List.append_subset.2 ⟨hsub, fun y hy => ?_⟩)
        (List.subset_append_right _ _) ?_
      · obtain ⟨⟨x, hx, hxy⟩, -⟩ := mem_freshSuccessors.1 hy
        exact hclosed x (hsub (hfrontier hx)) hxy
      · rw [List.length_append]
        omega

/-- **With as many rounds as there are places, the order of discovery does not depend on
the number of rounds.** -/
theorem explore_rounds {U : List α} (hplaces : places ⊆ U) (hclosed : ∀ x ∈ U, next x ⊆ U)
    {m n : ℕ} (hm : U.length ≤ m) (hn : U.length ≤ n) :
    explore next m places = explore next n places := by
  have hsub : places.eraseDups ⊆ U := fun x hx => hplaces (List.mem_eraseDups.1 hx)
  have key : ∀ k, U.length ≤ k → explore next k places = explore next U.length places := by
    intro k hk
    obtain ⟨more, rfl⟩ := Nat.exists_eq_add_of_le hk
    exact exploreFrom_add hclosed more (List.nodup_eraseDups places) hsub (fun x hx => hx)
      (Nat.le_add_left _ _)
  rw [key m hm, key n hn]

/-! ### Other places -/

section Map

variable {g : α → β} {next' : β → List β} {U : List α}
  (hinj : ∀ x ∈ U, ∀ y ∈ U, g x = g y → x = y) (hclosed : ∀ x ∈ U, next x ⊆ U)
  (hnext : ∀ x ∈ U, next' (g x) = (next x).map g)

include hinj hclosed hnext

theorem freshSuccessors_map (hfound : found ⊆ U) (hfrontier : frontier ⊆ U) :
    freshSuccessors next' (found.map g) (frontier.map g) =
      (freshSuccessors next found frontier).map g := by
  have hsuccessors : (frontier.map g).flatMap next' = (frontier.flatMap next).map g := by
    rw [List.flatMap_map, List.map_flatMap]
    exact List.flatMap_congr fun x hx => hnext x (hfrontier hx)
  have hmem : ∀ y ∈ frontier.flatMap next, y ∈ U := by
    intro y hy
    obtain ⟨x, hx, hxy⟩ := List.mem_flatMap.1 hy
    exact hclosed x (hfrontier hx) hxy
  have hfilter : ((frontier.flatMap next).map g).filter (fun y => !(found.map g).contains y) =
      ((frontier.flatMap next).filter fun x => !found.contains x).map g := by
    rw [List.filter_map]
    refine congrArg (List.map g) (List.filter_congr fun y hy => ?_)
    -- a place is found iff its image is
    have hiff : g y ∈ found.map g ↔ y ∈ found := by
      rw [List.mem_map]
      constructor
      · rintro ⟨x, hx, heq⟩
        exact hinj x (hfound hx) y (hmem y hy) heq ▸ hx
      · exact fun hy => ⟨y, hy, rfl⟩
    simp only [Function.comp_apply, List.contains_eq_mem, hiff]
  rw [freshSuccessors, freshSuccessors, hsuccessors, hfilter, List.eraseDups_map]
  intro x hx y hy
  exact hinj x (hmem x (List.mem_of_mem_filter hx)) y (hmem y (List.mem_of_mem_filter hy))

theorem exploreFrom_map (rounds : ℕ) (hfound : found ⊆ U) (hfrontier : frontier ⊆ U) :
    exploreFrom next' rounds (found.map g) (frontier.map g) =
      (exploreFrom next rounds found frontier).map g := by
  induction rounds generalizing found frontier with
  | zero => rfl
  | succ rounds ih =>
    have hfresh : freshSuccessors next found frontier ⊆ U := by
      intro y hy
      obtain ⟨⟨x, hx, hxy⟩, -⟩ := mem_freshSuccessors.1 hy
      exact hclosed x (hfrontier hx) hxy
    rw [exploreFrom, exploreFrom, freshSuccessors_map hinj hclosed hnext hfound hfrontier,
      List.isEmpty_map, ← List.map_append, ih (List.append_subset.2 ⟨hfound, hfresh⟩) hfresh]
    split <;> rfl

/-- **Places that correspond are discovered in the same order.** -/
theorem explore_map (rounds : ℕ) (hplaces : places ⊆ U) :
    explore next' rounds (places.map g) = (explore next rounds places).map g := by
  have hsub : places.eraseDups ⊆ U := fun x hx => hplaces (List.mem_eraseDups.1 hx)
  rw [explore, explore, List.eraseDups_map fun x hx y hy => hinj x (hplaces hx) y (hplaces hy)]
  exact exploreFrom_map hinj hclosed hnext rounds hsub hsub

end Map

/-! ### Fewer places -/

section Filter

variable {p : α → Bool} {next' : α → List α}
  (hback : ∀ x, ∀ y ∈ next x, p y = true → p x = true)
  (hnext : ∀ x, p x = true → next' x = (next x).filter p)

include hback hnext

theorem freshSuccessors_filter (found frontier : List α) :
    freshSuccessors next' (found.filter p) (frontier.filter p) =
      (freshSuccessors next found frontier).filter p := by
  have hsuccessors : (frontier.filter p).flatMap next' = (frontier.flatMap next).filter p := by
    rw [List.filter_flatMap, List.flatMap_congr fun x hx => hnext x (List.mem_filter.1 hx).2]
    -- a place that fails the test leads only to such places
    refine List.flatMap_filter_of_eq_nil fun x _ hx => List.filter_eq_nil_iff.2 fun y hy hpy => ?_
    exact hx (hback x y hy hpy)
  rw [freshSuccessors, freshSuccessors, hsuccessors, ← List.eraseDups_filter, List.filter_filter,
    List.filter_filter]
  refine congrArg List.eraseDups (List.filter_congr fun y _ => ?_)
  cases hy : p y <;> simp [hy]

theorem exploreFrom_filter (rounds : ℕ) (found frontier : List α) :
    exploreFrom next' rounds (found.filter p) (frontier.filter p) =
      (exploreFrom next rounds found frontier).filter p := by
  induction rounds generalizing found frontier with
  | zero => rfl
  | succ rounds ih =>
    have hrest := ih (found ++ freshSuccessors next found frontier)
      (freshSuccessors next found frontier)
    rw [List.filter_append] at hrest
    rw [exploreFrom, exploreFrom, freshSuccessors_filter hback hnext]
    by_cases hfresh : (freshSuccessors next found frontier).isEmpty = true
    · rw [List.isEmpty_iff.1 hfresh]
      rfl
    · rw [if_neg hfresh, ← hrest]
      -- the round may bring nothing that passes the test, and then no later one does
      split
      · rename_i hnone
        rw [List.isEmpty_iff.1 hnone, List.append_nil, exploreFrom_nil]
      · rfl

/-- **Without the places that lead only out, the others are discovered in the same order.** -/
theorem explore_filter (rounds : ℕ) (places : List α) :
    explore next' rounds (places.filter p) = (explore next rounds places).filter p := by
  rw [explore, explore, List.eraseDups_filter]
  exact exploreFrom_filter hback hnext rounds _ _

end Filter

end FiniteState
