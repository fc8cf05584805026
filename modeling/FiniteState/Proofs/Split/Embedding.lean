import Mathlib.Data.List.Induction
import FiniteState.Proofs.Automaton.Restriction
import FiniteState.Proofs.Automaton.Renaming
import FiniteState.Proofs.Split.Table

/-!
# Tables whose states are their rows

An automaton with one list of rows has its states as the keys of these rows.  Kept apart, the keys
are the states of an automaton in two collections.  On a well-formed table, where no key is
repeated and every row has the symbols of the alphabet, each operation on the two collections does
what the operation on the one list of rows does.

## Main definitions

* `Automaton.split` — a table in two collections.

## Main results

* `WellFormed.split_insertState`, `WellFormed.split_deleteState`, `WellFormed.split_relabel` and
  the others of this form — **the operations agree**.
-/

namespace FiniteState

/-! ### Collections without repetitions -/

section Collections

variable {α κ β : Type} [DecidableEq α] [DecidableEq κ]

theorem mem_insertNew {l : List α} {x y : α} : y ∈ insertNew l x ↔ y ∈ l ∨ y = x := by
  rw [insertNew]
  split
  · rename_i hx
    exact ⟨.inl, fun h => h.elim id fun h => h ▸ hx⟩
  · simp

theorem mem_foldl_insertNew {l l' : List α} {x : α} :
    x ∈ l'.foldl insertNew l ↔ x ∈ l ∨ x ∈ l' := by
  induction l' generalizing l with
  | nil => simp
  | cons y l' ih => rw [List.foldl_cons, ih, mem_insertNew, List.mem_cons, or_assoc]

/-- Where nothing is repeated, nothing is passed over. -/
theorem foldl_insertNew_of_nodup {l l' : List α} (h : (l ++ l').Nodup) :
    l'.foldl insertNew l = l ++ l' := by
  induction l' generalizing l with
  | nil => exact (List.append_nil l).symm
  | cons x l' ih =>
    have hx : x ∉ l := fun hx => (List.nodup_append.1 h).2.2 x hx x List.mem_cons_self rfl
    have hconcat : l ++ x :: l' = l ++ [x] ++ l' := by simp
    rw [List.foldl_cons, insertNew_of_notMem hx, ih (hconcat ▸ h), hconcat]

theorem insertAll_of_nodup {l : List α} (h : l.Nodup) : insertAll l = l :=
  foldl_insertNew_of_nodup h

theorem foldl_insertNew_of_subset {l l' : List α} (h : ∀ x ∈ l', x ∈ l) :
    l'.foldl insertNew l = l := by
  induction l' with
  | nil => rfl
  | cons x l' ih =>
    rw [List.forall_mem_cons] at h
    rw [List.foldl_cons, insertNew_of_mem h.1, ih h.2]

/-- What comes later and is no news is passed over. -/
theorem insertAll_append_of_subset {l l' : List α} (hnd : l.Nodup) (h : ∀ x ∈ l', x ∈ l) :
    insertAll (l ++ l') = l := by
  have hfirst : l.foldl insertNew [] = l := insertAll_of_nodup hnd
  rw [insertAll, List.foldl_append, hfirst, foldl_insertNew_of_subset h]

/-- The distinct members are those that are left without the repetitions. -/
theorem insertAll_eq_eraseDups (l : List α) :
    insertAll l = l.eraseDups := by
  induction l using List.reverseRecOn with
  | nil => rfl
  | append_singleton l x ih =>
    have hstep : insertAll (l ++ [x]) = insertNew (insertAll l) x := List.foldl_append
    rw [hstep, ih, List.eraseDups_append]
    by_cases hx : x ∈ l
    · rw [insertNew_of_mem (List.mem_eraseDups.2 hx)]
      simp [List.removeAll, hx]
    · rw [insertNew_of_notMem (mt List.mem_eraseDups.1 hx)]
      simp [List.removeAll, hx, List.eraseDups_cons]

theorem put_of_notMem {k : κ} (v : β) {l : List (κ × β)} (h : k ∉ l.map Prod.fst) :
    put k v l = l ++ [(k, v)] := by
  induction l with
  | nil => rfl
  | cons e l ih =>
    rw [List.map_cons, List.mem_cons, not_or] at h
    rw [put, if_neg (Ne.symm h.1), ih h.2, List.cons_append]

theorem foldl_put_of_nodup {l l' : List (κ × β)} (h : ((l ++ l').map Prod.fst).Nodup) :
    l'.foldl (fun entries e => put e.1 e.2 entries) l = l ++ l' := by
  induction l' generalizing l with
  | nil => exact (List.append_nil l).symm
  | cons e l' ih =>
    have hkey : e.1 ∉ l.map Prod.fst := by
      intro hmem
      rw [List.map_append, List.nodup_append] at h
      exact h.2.2 e.1 hmem e.1 (by simp) rfl
    have hconcat : l ++ e :: l' = l ++ [e] ++ l' := by simp
    rw [List.foldl_cons, put_of_notMem e.2 hkey, ih (hconcat ▸ h), hconcat]

theorem putAll_of_nodup {l : List (κ × β)} (h : (l.map Prod.fst).Nodup) : putAll l = l :=
  foldl_put_of_nodup h

theorem eraseEntry_of_nodup (k : κ) {l : List (κ × β)} (h : (l.map Prod.fst).Nodup) :
    eraseEntry k l = l.filter fun e => e.1 != k := by
  induction l with
  | nil => rfl
  | cons e l ih =>
    rw [List.map_cons, List.nodup_cons] at h
    rw [eraseEntry, List.eraseP_cons, List.filter_cons]
    by_cases he : e.1 = k
    · -- no other entry has the key
      have hrest : ∀ x ∈ l, (x.1 != k) = true := by
        intro x hx
        rw [bne_iff_ne, ← he]
        exact fun heq => h.1 (List.mem_map.2 ⟨x, hx, heq⟩)
      simp [he, List.filter_eq_self.2 hrest]
    · have hrest := ih h.2
      rw [eraseEntry] at hrest
      simp [he, hrest]

end Collections

namespace Automaton

variable {fa : Automaton} {q r : Label} {s : Symbol}

/-- The table in two collections. -/
def split (fa : Automaton) : SplitAutomaton :=
  ⟨fa.states, fa.alphabet, fa.rows, fa.initial, fa.finals, fa.determinized⟩

theorem inStep_split (fa : Automaton) : fa.split.InStep := rfl

theorem split_withDeterminized (fa : Automaton) (flag : Bool) :
    (fa.withDeterminized flag).split = fa.split.withDeterminized flag := rfl

/-! ### Growth and change -/

theorem split_insertState (fa : Automaton) (q : Label) :
    (fa.insertState q).split = fa.split.insertState q := by
  by_cases hq : q ∈ fa.states
  · rw [SplitAutomaton.insertState_of_mem hq, insertState, if_pos (fa.hasState_iff.2 hq)]
  · have hstates : (fa.insertState q).states = fa.states ++ [q] := by
      rw [states_insertState, if_neg hq]
    have hrows : (fa.insertState q).rows =
        put q (fa.alphabet.map fun s => (s, Cell.empty)) fa.rows := by
      rw [put_of_notMem _ hq, insertState, if_neg (mt fa.hasState_iff.1 hq)]
      rfl
    rw [SplitAutomaton.insertState_of_notMem hq, split, hstates, hrows, alphabet_insertState,
      initial_insertState, finals_insertState, determinized_insertState]
    rfl

theorem split_modifyCell (fa : Automaton) (q : Label) (s : Symbol) (f : Cell → Cell) :
    (fa.modifyCell q s f).split = fa.split.modifyCell q s f := by
  have hrow (row : Row) : Row.modify row s f = modifyEntry s f row :=
    List.map_congr_left fun x _ => by split <;> rfl
  have hrows : (fa.modifyCell q s f).rows = modifyEntry q (modifyEntry s f) fa.rows := by
    rw [rows_modifyCell]
    refine List.map_congr_left fun e _ => ?_
    rw [hrow]
    split <;> rfl
  rw [split, hrows, states_modifyCell]
  rfl

namespace WellFormed

variable (h : fa.WellFormed)

include h

theorem split_insertSymbol (s : Symbol) : (fa.insertSymbol s).split = fa.split.insertSymbol s := by
  by_cases hs : s ∈ fa.alphabet
  · rw [SplitAutomaton.insertSymbol_of_mem hs, Automaton.insertSymbol,
      if_pos (fa.hasSymbol_iff.2 hs)]
  · have hrows : (fa.insertSymbol s).rows = fa.rows.map fun e => (e.1, put s Cell.empty e.2) := by
      rw [Automaton.insertSymbol, if_neg (mt fa.hasSymbol_iff.1 hs)]
      refine List.map_congr_left fun e he => ?_
      -- a row has the symbols of the alphabet, and no other ones
      rw [put_of_notMem]
      rwa [h.row_symbols e he]
    rw [SplitAutomaton.insertSymbol_of_notMem hs, split, hrows, states_insertSymbol,
      alphabet_insertSymbol, if_neg hs, initial_insertSymbol, finals_insertSymbol,
      determinized_insertSymbol]
    rfl

theorem split_removeFinal (q : Label) : (fa.removeFinal q).split = fa.split.removeFinal q := by
  show SplitAutomaton.mk _ _ _ _ (fa.finals.filter (· != q)) _ =
    SplitAutomaton.mk _ _ _ _ (fa.finals.erase q) _
  rw [h.finals_nodup.erase_eq_filter]
  rfl

/-! ### Deletion -/

theorem split_deleteState (q : Label) : (fa.deleteState q).split = fa.split.deleteState q := by
  by_cases hq : q ∈ fa.states
  · have hrows : eraseEntry q fa.rows = fa.rows.filter fun e => e.1 != q :=
      eraseEntry_of_nodup q h.states_nodup
    have hinitial : (if fa.initial = some q then none else fa.initial) =
        fa.initial.filter (· != q) := by
      cases fa.initial with
      | none => simp
      | some p => by_cases hp : p = q <;> simp [Option.filter, hp]
    rw [SplitAutomaton.deleteState_of_mem hq]
    show _ = SplitAutomaton.mk (fa.states.erase q) _ ((eraseEntry q fa.rows).map _)
      (if fa.initial = some q then none else fa.initial) (fa.finals.erase q) _
    rw [h.states_nodup.erase_eq_filter, h.finals_nodup.erase_eq_filter, hrows, hinitial, split,
      Automaton.deleteState, states_keepStates]
    rfl
  · rw [SplitAutomaton.deleteState_of_notMem hq, Automaton.deleteState, h.keepStates_eq_self]
    intro p hp
    rw [bne_iff_ne]
    rintro rfl
    exact hq hp

theorem split_deleteSymbol (s : Symbol) : (fa.deleteSymbol s).split = fa.split.deleteSymbol s := by
  by_cases hs : s ∈ fa.alphabet
  · have hrows : (fa.rows.map fun e => (e.1, eraseEntry s e.2)) =
        (fa.keepSymbols (· != s)).rows := by
      refine List.map_congr_left fun e he => ?_
      rw [eraseEntry_of_nodup]
      rw [h.row_symbols e he]
      exact h.alphabet_nodup
    rw [SplitAutomaton.deleteSymbol_of_mem hs]
    show _ = SplitAutomaton.mk _ (fa.alphabet.erase s) (fa.rows.map _) _ _ _
    rw [h.alphabet_nodup.erase_eq_filter, hrows, split, Automaton.deleteSymbol, states_keepSymbols]
    rfl
  · rw [SplitAutomaton.deleteSymbol_of_notMem hs, Automaton.deleteSymbol, h.keepSymbols_eq_self]
    intro t ht
    rw [bne_iff_ne]
    rintro rfl
    exact hs ht

/-! ### Renaming -/

theorem split_relabel {f : Label → Label} (hinj : Set.InjOn f {q | q ∈ fa.states}) :
    (fa.relabel f).split = fa.split.relabel f := by
  have hwf := h.relabel hinj
  have hstates : insertAll (fa.states.map f) = (fa.relabel f).states := by
    rw [← states_relabel]
    exact insertAll_of_nodup hwf.states_nodup
  have hrows : putAll (fa.relabel f).rows = (fa.relabel f).rows :=
    putAll_of_nodup hwf.states_nodup
  have hfinals : insertAll (fa.finals.map f) = fa.finals.map f :=
    insertAll_of_nodup hwf.finals_nodup
  show _ = SplitAutomaton.mk (insertAll (fa.states.map f)) _ (putAll (fa.relabel f).rows) _
    (insertAll (fa.finals.map f)) _
  rw [hstates, hrows, hfinals]
  rfl

end WellFormed

end Automaton

end FiniteState
