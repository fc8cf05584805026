import FiniteState.Proofs.Automaton.WellFormed

/-!
# Equality up to the order of insertion

Two tables count as the same when they have the same states, symbols, cells, marks and
flag, in whatever order these were inserted.  The comparison of the library looks every
state and symbol of the one table up in the other; on well-formed tables, where no key is
repeated, it decides whether all views of the two agree.

## Main definitions

* `Automaton.Agrees` — all views of two automata agree.

## Main results

* `sameMembers_iff`, `sameEntries_iff` — what the two comparisons of lists decide.
* `WellFormed.exists_cell_iff` — a cell stands where a row and a column cross.
* `WellFormed.same_iff` — **the comparison decides whether all views agree**.
-/

namespace FiniteState.Automaton

variable {fa fb : Automaton} {q : Label} {s : Symbol}

/-! ### Lists -/

theorem sameMembers_iff {α : Type} [BEq α] [LawfulBEq α] {xs ys : List α} :
    sameMembers xs ys = true ↔ ∀ x, x ∈ xs ↔ x ∈ ys := by
  simp only [sameMembers, Bool.and_eq_true, List.all_eq_true, List.contains_iff_mem]
  exact ⟨fun h x => ⟨h.1 x, h.2 x⟩, fun h => ⟨fun x => (h x).1, fun x => (h x).2⟩⟩

/-- Where no key is repeated, the entries are the same iff the keys are and what is found
under a key on both sides matches. -/
theorem sameEntries_iff {κ β : Type} [BEq κ] [LawfulBEq κ] {matches? : β → β → Bool}
    {xs ys : List (κ × β)} (hnd : (xs.map Prod.fst).Nodup) :
    sameEntries matches? xs ys = true ↔
      (∀ k, k ∈ xs.map Prod.fst ↔ k ∈ ys.map Prod.fst) ∧
        ∀ k x y, xs.lookup k = some x → ys.lookup k = some y → matches? x y = true := by
  rw [sameEntries, Bool.and_eq_true, sameMembers_iff]
  refine and_congr_right fun hkeys => ?_
  simp only [List.all_eq_true, Prod.forall]
  constructor
  · intro h k x y hx hy
    have hmatch := h k x (List.mem_of_lookup_eq_some hx)
    rwa [hy] at hmatch
  · intro h k x hx
    obtain ⟨y, hy⟩ := List.exists_lookup_eq_some ((hkeys k).1 (List.mem_map.2 ⟨_, hx, rfl⟩))
    rw [hy]
    exact h k x y (List.lookup_eq_some_of_mem hnd hx) hy

/-! ### Views -/

/-- **All views of two automata agree**; the order of insertion is not seen. -/
structure Agrees (fa fb : Automaton) : Prop where
  /-- They have the same states. -/
  states : ∀ q, q ∈ fa.states ↔ q ∈ fb.states
  /-- They have the same symbols. -/
  alphabet : ∀ s, s ∈ fa.alphabet ↔ s ∈ fb.alphabet
  /-- The cells hold the same targets and rejected texts. -/
  cells : ∀ q s, fa.cell? q s = fb.cell? q s
  /-- They have the same initial state. -/
  initial : fa.initial = fb.initial
  /-- They have the same accepting states. -/
  finals : ∀ q, q ∈ fa.finals ↔ q ∈ fb.finals
  /-- They have the same flag. -/
  determinized : fa.determinized = fb.determinized

theorem Agrees.refl (fa : Automaton) : fa.Agrees fa :=
  ⟨fun _ => .rfl, fun _ => .rfl, fun _ _ => rfl, rfl, fun _ => .rfl, rfl⟩

theorem cell?_eq_some_iff {c : Cell} :
    fa.cell? q s = some c ↔ ∃ row, fa.row? q = some row ∧ row.lookup s = some c :=
  Option.bind_eq_some_iff

namespace WellFormed

/-- The symbols of a row are those of the alphabet. -/
theorem map_fst_row (h : fa.WellFormed) {row : Row} (hrow : fa.row? q = some row) :
    row.map Prod.fst = fa.alphabet :=
  h.row_symbols _ (List.mem_of_lookup_eq_some hrow)

/-- **A cell stands where a row and a column cross.** -/
theorem exists_cell_iff (h : fa.WellFormed) :
    (∃ c, fa.cell? q s = some c) ↔ q ∈ fa.states ∧ s ∈ fa.alphabet := by
  constructor
  · rintro ⟨c, hc⟩
    obtain ⟨row, hrow, hcell⟩ := cell?_eq_some_iff.1 hc
    refine ⟨fa.mem_states_of_row hrow, ?_⟩
    rw [← h.map_fst_row hrow]
    exact List.mem_map.2 ⟨_, List.mem_of_lookup_eq_some hcell, rfl⟩
  · rintro ⟨hq, hs⟩
    obtain ⟨row, hrow⟩ : ∃ row, fa.row? q = some row := List.exists_lookup_eq_some hq
    obtain ⟨c, hc⟩ := List.exists_lookup_eq_some (l := row) (k := s) (by rwa [h.map_fst_row hrow])
    exact ⟨c, cell?_eq_some_iff.2 ⟨row, hrow, hc⟩⟩

/-- Where there is no such state or no such symbol, there is no cell. -/
theorem cell?_eq_none (h : fa.WellFormed) (hout : ¬ (q ∈ fa.states ∧ s ∈ fa.alphabet)) :
    fa.cell? q s = none := by
  rw [Option.eq_none_iff_forall_ne_some]
  exact fun c hc => hout (h.exists_cell_iff.1 ⟨c, hc⟩)

variable (hfa : fa.WellFormed) (hfb : fb.WellFormed)

include hfa hfb

/-- Rows of the same symbols are the same iff the cells are. -/
theorem sameRow_iff {x y : Row} (hx : fa.row? q = some x) (hy : fb.row? q = some y)
    (halphabet : ∀ s, s ∈ fa.alphabet ↔ s ∈ fb.alphabet) :
    sameEntries (fun c d => c == d) x y = true ↔ ∀ s, fa.cell? q s = fb.cell? q s := by
  have hnd : (x.map Prod.fst).Nodup := by
    rw [hfa.map_fst_row hx]
    exact hfa.alphabet_nodup
  rw [sameEntries_iff hnd, hfa.map_fst_row hx, hfb.map_fst_row hy, and_iff_right halphabet]
  simp only [beq_iff_eq, cell?, hx, hy, Option.bind_some]
  constructor
  · intro h s
    cases hc : x.lookup s with
    | some c =>
      -- the column is in the other table, too
      have hs : s ∈ y.map Prod.fst := by
        rw [hfb.map_fst_row hy, ← halphabet, ← hfa.map_fst_row hx]
        exact List.mem_map.2 ⟨_, List.mem_of_lookup_eq_some hc, rfl⟩
      obtain ⟨d, hd⟩ := List.exists_lookup_eq_some hs
      rw [hd, h s c d hc hd]
    | none =>
      rw [eq_comm, Option.eq_none_iff_forall_ne_some]
      intro d hd
      have hs : s ∈ x.map Prod.fst := by
        rw [hfa.map_fst_row hx, halphabet, ← hfb.map_fst_row hy]
        exact List.mem_map.2 ⟨_, List.mem_of_lookup_eq_some hd, rfl⟩
      obtain ⟨c, hc'⟩ := List.exists_lookup_eq_some hs
      rw [hc] at hc'
      cases hc'
  · intro h s c d hc hd
    rw [h s, hd] at hc
    exact (Option.some.inj hc).symm

/-- **The comparison decides whether all views agree.** -/
theorem same_iff : fa.same fb = true ↔ fa.Agrees fb := by
  simp only [same, Bool.and_eq_true, sameMembers_iff, sameEntries_iff hfa.states_nodup, beq_iff_eq]
  constructor
  · rintro ⟨⟨⟨⟨halphabet, hstates, hrows⟩, hinitial⟩, hfinals⟩, hflag⟩
    refine ⟨hstates, halphabet, fun q s => ?_, hinitial, hfinals, hflag⟩
    by_cases hq : q ∈ fa.states
    · obtain ⟨x, hx⟩ : ∃ x, fa.row? q = some x := List.exists_lookup_eq_some hq
      obtain ⟨y, hy⟩ : ∃ y, fb.row? q = some y := List.exists_lookup_eq_some ((hstates q).1 hq)
      exact (hfa.sameRow_iff hfb hx hy halphabet).1 (hrows q x y hx hy) s
    · rw [hfa.cell?_eq_none fun hcell => hq hcell.1,
        hfb.cell?_eq_none fun hcell => hq ((hstates q).2 hcell.1)]
  · intro h
    refine ⟨⟨⟨⟨h.alphabet, h.states, fun q x y hx hy => ?_⟩, h.initial⟩, h.finals⟩, h.determinized⟩
    exact (hfa.sameRow_iff hfb hx hy h.alphabet).2 (h.cells q)

end WellFormed

/-- A well-formed automaton is the same as itself. -/
theorem WellFormed.same_self (h : fa.WellFormed) : fa.same fa = true :=
  (h.same_iff h).2 (.refl fa)

end FiniteState.Automaton
