import FiniteState.Proofs.Automaton.Machine
import FiniteState.Proofs.Automaton.Reduced
import FiniteState.Proofs.Automaton.Renamed

/-!
# Tables as the constructions leave them

A construction fills a table in one go: it rejects no text, it lists the accepting states
in the order of the states, and it flags the result.  Trimming and renaming keep this up.
Such a table is determined by its states and symbols, in order, and by its marks and
transitions, so that two of them are equal when no view tells them apart.  The steps which a
construction ends with do nothing where there is nothing to do: trimming a trimmed table, and
labelling states that have labels of their own.

## Main definitions

* `Automaton.Constructed` — the tables as the constructions leave them.

## Main results

* `Constructed.ext` — **a constructed table is determined by its views**.
* `Machine.Lawful.toAutomaton_eq` — a machine whose states describe those of a constructed
  table has that table as its automaton.
* `Constructed.live_eq` — a trimmed table is not trimmed any more.
-/

namespace FiniteState

namespace Automaton

variable {fa fb : Automaton} {q r : Label} {s : Symbol}

/-- **A table as the constructions leave it.** -/
structure Constructed (fa : Automaton) : Prop where
  /-- The table is well formed. -/
  wellFormed : fa.WellFormed
  /-- No text was rejected. -/
  unrejected : ∀ e ∈ fa.rows, ∀ x ∈ e.2, x.2.rejected = none
  /-- The accepting states stand in the order of the states. -/
  finals_eq : fa.finals = fa.states.filter fa.isFinal
  /-- The result is flagged. -/
  determinized : fa.determinized = true

/-! ### Deterministic cells -/

/-- A set with one member at most lists the least one. -/
theorem toList_eq_first? {S : LabelSet} (h : ∀ r ∈ S, ∀ r' ∈ S, r = r') :
    S.toList = S.first?.toList := by
  have hlen := WellFormed.size_le_one_iff.2 h
  unfold LabelSet.size at hlen
  unfold LabelSet.first?
  match hS : S.toList with
  | [] => rfl
  | [r] => rfl
  | r :: r' :: rest =>
    rw [hS] at hlen
    simp at hlen

/-- A cell without a rejected text that has one target at most. -/
theorem ofTarget?_first? {c : Cell} (hrejected : c.rejected = none)
    (h : ∀ r ∈ c.targets, ∀ r' ∈ c.targets, r = r') : Cell.ofTarget? c.targets.first? = c := by
  obtain ⟨⟨members, ascending⟩, rejected⟩ := c
  obtain rfl : rejected = none := hrejected
  have hlist : members = members.head?.toList := toList_eq_first? h
  cases members with
  | nil => rfl
  | cons r rest =>
    obtain rfl : rest = [] := by simpa using hlist
    rfl

theorem Deterministic.successors_eq (h : fa.Deterministic) (q : Label) :
    fa.successors q = fa.alphabet.filterMap fun s => (fa.targets q s).first? := by
  rw [successors, List.filterMap_eq_flatMap_toList]
  exact List.flatMap_congr fun s _ => toList_eq_first? fun r hr r' hr' => h.target_unique hr hr'

namespace Constructed

theorem deterministic (h : fa.Constructed) : fa.Deterministic :=
  h.wellFormed.deterministic h.determinized

/-! ### Views -/

/-- The rows list the transitions. -/
theorem rows_eq (h : fa.Constructed) : fa.rows = fa.states.map fun q =>
    (q, fa.alphabet.map fun s => (s, Cell.ofTarget? (fa.targets q s).first?)) := by
  have hrow : ∀ e ∈ fa.rows, (e.1, fa.alphabet.map fun s =>
      (s, Cell.ofTarget? (fa.targets e.1 s).first?)) = e := by
    intro e he
    have hcell : ∀ x ∈ e.2, (x.1, Cell.ofTarget? (fa.targets e.1 x.1).first?) = x := by
      intro x hx
      have htargets : fa.targets e.1 x.1 = x.2.targets :=
        h.wellFormed.targets_of_mem_cells (mem_cells.2 ⟨e.2, he, hx⟩)
      rw [htargets, ofTarget?_first? (h.unrejected e he x hx)]
      intro r hr r' hr'
      rw [← htargets] at hr hr'
      exact h.deterministic.target_unique hr hr'
    rw [← h.wellFormed.row_symbols e he, List.map_map]
    exact congrArg (Prod.mk e.1) ((List.map_congr_left hcell).trans (List.map_id _))
  rw [states, List.map_map]
  exact ((List.map_congr_left hrow).trans (List.map_id _)).symm

/-- **A constructed table is determined by its views.** -/
theorem ext (ha : fa.Constructed) (hb : fb.Constructed) (halphabet : fa.alphabet = fb.alphabet)
    (hstates : fa.states = fb.states) (hinitial : fa.initial = fb.initial)
    (hfinals : ∀ q, q ∈ fa.finals ↔ q ∈ fb.finals)
    (htargets : ∀ q s r, r ∈ fa.targets q s ↔ r ∈ fb.targets q s) : fa = fb := by
  have htable : fa.rows = fb.rows := by
    have hsets : fa.targets = fb.targets :=
      funext fun q => funext fun s => LabelSet.ext (htargets q s)
    rw [ha.rows_eq, hb.rows_eq, halphabet, hstates, hsets]
  have hends : fa.finals = fb.finals := by
    rw [ha.finals_eq, hb.finals_eq, hstates]
    refine List.filter_congr fun q _ => ?_
    rw [Bool.eq_iff_iff, isFinal_iff, isFinal_iff, hfinals]
  exact Automaton.ext halphabet htable hinitial hends (ha.determinized.trans hb.determinized.symm)

/-! ### Trimming and renaming -/

theorem keepStates (h : fa.Constructed) (p : Label → Bool) : (fa.keepStates p).Constructed where
  wellFormed := h.wellFormed.keepStates p
  unrejected e he x hx := by
    obtain ⟨e', he', rfl⟩ := List.mem_map.1 he
    obtain ⟨x', hx', rfl⟩ := List.mem_map.1 hx
    exact h.unrejected e' (List.mem_of_mem_filter he') x' hx'
  finals_eq := by
    rw [finals_keepStates, states_keepStates, h.finals_eq, List.filter_filter, List.filter_filter]
    refine List.filter_congr fun q hq => ?_
    rw [Bool.eq_iff_iff, Bool.and_eq_true, Bool.and_eq_true, isFinal_iff, isFinal_iff,
      finals_keepStates, List.mem_filter, and_comm, and_assoc, and_self]
  determinized := h.determinized

theorem keepSymbols (h : fa.Constructed) (p : Symbol → Bool) :
    (fa.keepSymbols p).Constructed where
  wellFormed := h.wellFormed.keepSymbols p
  unrejected e he x hx := by
    obtain ⟨e', he', rfl⟩ := List.mem_map.1 he
    exact h.unrejected e' he' x (List.mem_of_mem_filter hx)
  finals_eq := by
    rw [states_keepSymbols]
    exact h.finals_eq
  determinized := h.determinized

theorem relabel (h : fa.Constructed) {f : Label → Label} (hinj : Set.InjOn f {q | q ∈ fa.states}) :
    (fa.relabel f).Constructed where
  wellFormed := h.wellFormed.relabel hinj
  unrejected e he x hx := by
    obtain ⟨e', he', rfl⟩ := List.mem_map.1 he
    obtain ⟨x', hx', rfl⟩ := List.mem_map.1 hx
    exact h.unrejected e' he' x' hx'
  finals_eq := by
    rw [finals_relabel, states_relabel, List.filter_map, h.finals_eq]
    refine congrArg (List.map f) (List.filter_congr fun q hq => ?_)
    -- a state accepts iff its name does
    rw [Bool.eq_iff_iff, Function.comp_apply, isFinal_iff, isFinal_iff, finals_relabel,
      List.mem_map]
    constructor
    · exact fun hfinal => ⟨q, hfinal, rfl⟩
    · rintro ⟨q', hfinal, heq⟩
      rwa [← hinj (h.wellFormed.final_mem hfinal) hq heq]
  determinized := h.determinized

theorem removeUseless (h : fa.Constructed) : fa.removeUseless.Constructed :=
  (h.keepStates _).keepSymbols _

theorem rename (h : fa.Constructed) : fa.rename.Constructed := by
  rw [rename_eq]
  exact h.relabel (h.wellFormed.injOn_newName .full)

end Constructed

/-! ### Where there is nothing to do -/

namespace Constructed

/-- Where all symbols are in use, none is removed. -/
theorem pruneUnusedSymbols_eq (h : fa.Constructed)
    (hused : ∀ s ∈ fa.alphabet, ∃ q r, r ∈ fa.targets q s) : fa.pruneUnusedSymbols = fa :=
  h.wellFormed.keepSymbols_eq_self fun s hs => h.wellFormed.usesSymbol_iff.2 (hused s hs)

/-- Where all states are reached, none is removed. -/
theorem removeUnreachable_eq (h : fa.Constructed) (hreached : ∀ q ∈ fa.states, fa.Reached q) :
    fa.removeUnreachable = fa :=
  h.wellFormed.keepStates_eq_self fun q hq =>
    h.wellFormed.contains_reachableFromInitial.2 (hreached q hq)

/-- Where all states are useful and all symbols in use, none is removed. -/
theorem removeUseless_eq (h : fa.Constructed) (htrimmed : fa.Trimmed) : fa.removeUseless = fa := by
  have hkept : fa.keepStates fa.coreachable.contains = fa :=
    h.wellFormed.keepStates_eq_self fun q hq =>
      h.wellFormed.contains_coreachable.2 (htrimmed.useful hq)
  rw [Automaton.removeUseless, hkept, h.pruneUnusedSymbols_eq fun s hs => htrimmed.used hs]

/-- **A trimmed table is not trimmed any more.** -/
theorem live_eq (h : fa.Constructed) (htrimmed : fa.Trimmed) : fa.live = fa := by
  rw [live, h.removeUnreachable_eq fun q hq => htrimmed.reached hq, h.removeUseless_eq htrimmed]

end Constructed

end Automaton

/-! ### Machines -/

/-- Descriptions that differ are not primed. -/
theorem Label.distinct_of_nodup {κ : Type} {describe : κ → Label} {keys : List κ}
    (hnd : (keys.map describe).Nodup) :
    distinct describe keys = keys.map fun k => (k, describe k) := by
  have key : ∀ taken : List Label, (∀ k ∈ keys, describe k ∉ taken) →
      distinctFrom describe taken keys = keys.map fun k => (k, describe k) := by
    induction keys with
    | nil => exact fun _ _ => rfl
    | cons k keys ih =>
      intro taken hfree
      rw [List.map_cons, List.nodup_cons] at hnd
      have hprimed : primed taken (describe k) = describe k := by
        unfold primed
        cases taken.length with
        | zero => rfl
        | succ n =>
          rw [addPrimes, if_neg]
          exact fun h => hfree k List.mem_cons_self (List.contains_iff_mem.1 h)
      rw [distinctFrom, hprimed, List.map_cons, ih hnd.2]
      intro l hl htaken
      rcases List.mem_cons.1 htaken with heq | htaken
      · exact hnd.1 (heq ▸ List.mem_map.2 ⟨l, hl, rfl⟩)
      · exact hfree l (List.mem_cons_of_mem k hl) htaken
  exact key [] fun _ _ => List.not_mem_nil

namespace Machine

/-- Where the descriptions differ, they are the labels. -/
theorem label_of_nodup {κ : Type} [DecidableEq κ] {m : Machine κ} {describe : κ → Label}
    (hnd : (m.states.map describe).Nodup) {k : κ} (hk : k ∈ m.states) :
    m.label describe k = describe k := by
  rw [label, Label.distinct_of_nodup hnd, List.lookup_tabulated, if_pos hk, Option.getD_some]

end Machine

namespace Machine.Lawful

variable {κ : Type} [DecidableEq κ] {m : Machine κ} {describe : κ → Label} {fa : Automaton}

/-- The accepting states have their labels, in the same order. -/
theorem finals_toAutomaton (h : m.Lawful) (describe : κ → Label) :
    (m.toAutomaton describe).finals = (m.states.filter m.accepting).map (m.label describe) := by
  unfold toAutomaton
  simp only [h.distinct_eq, List.filter_map, List.map_map]
  rfl

/-- The automaton of a machine is a constructed table. -/
theorem constructed (h : m.Lawful) (describe : κ → Label) :
    (m.toAutomaton describe).Constructed where
  wellFormed := h.wellFormed describe
  unrejected e he x hx := by
    obtain ⟨⟨k, l⟩, -, rfl⟩ := List.mem_map.1 he
    obtain ⟨s, -, rfl⟩ := List.mem_map.1 hx
    show (Cell.ofTarget? _).rejected = none
    cases (m.step k s).bind ((Label.distinct describe m.states).lookup ·) <;> rfl
  finals_eq := by
    rw [h.finals_toAutomaton, h.states_toAutomaton, List.filter_map]
    refine congrArg (List.map _) (List.filter_congr fun k hk => ?_)
    rw [Bool.eq_iff_iff, Function.comp_apply, Automaton.isFinal_iff, h.mem_finals_toAutomaton]
    constructor
    · exact fun haccepting => ⟨k, hk, haccepting, rfl⟩
    · rintro ⟨l, hl, haccepting, heq⟩
      rwa [← label_inj hl hk heq]
  determinized := rfl

/-- A state that a word leads to has a label that is reached. -/
theorem reached_toAutomaton (h : m.Lawful) {i k : κ} {w : List Symbol} (hi : m.initial = some i)
    (hk : m.runFrom i w = some k) : (m.toAutomaton describe).Reached (m.label describe k) := by
  refine ⟨m.label describe i, w, ?_, (h.path_toAutomaton (h.initial_mem hi)).2 ⟨k, hk, rfl⟩⟩
  rw [h.initial_toAutomaton, hi, Option.map_some]

/-- **A machine whose states describe those of a constructed table**, with the same symbols,
marks and transitions, has that table as its automaton. -/
theorem toAutomaton_eq (h : m.Lawful) (hfa : fa.Constructed)
    (hstates : m.states.map describe = fa.states) (halphabet : m.alphabet = fa.alphabet)
    (hinitial : m.initial.map describe = fa.initial)
    (hfinals : ∀ k ∈ m.states, m.accepting k = true ↔ describe k ∈ fa.finals)
    (htargets : ∀ k ∈ m.states, ∀ s r, r ∈ fa.targets (describe k) s ↔
      s ∈ m.alphabet ∧ ∃ l, m.step k s = some l ∧ describe l = r) :
    m.toAutomaton describe = fa := by
  have hnd : (m.states.map describe).Nodup := hstates ▸ hfa.wellFormed.states_nodup
  have hlabel : ∀ k ∈ m.states, m.label describe k = describe k := fun k => label_of_nodup hnd
  have hlabels : (m.toAutomaton describe).states = fa.states := by
    rw [h.states_toAutomaton, ← hstates]
    exact List.map_congr_left hlabel
  have hmem : ∀ q, q ∈ fa.states ↔ ∃ k ∈ m.states, describe k = q := by
    intro q
    rw [← hstates, List.mem_map]
  refine (h.constructed describe).ext hfa halphabet hlabels ?_ (fun q => ?_) fun q s r => ?_
  · rw [h.initial_toAutomaton, ← hinitial]
    cases hi : m.initial with
    | none => rfl
    | some i => rw [Option.map_some, Option.map_some, hlabel i (h.initial_mem hi)]
  · rw [h.mem_finals_toAutomaton]
    constructor
    · rintro ⟨k, hk, haccepting, rfl⟩
      rw [hlabel k hk]
      exact (hfinals k hk).1 haccepting
    · intro hq
      obtain ⟨k, hk, rfl⟩ := (hmem q).1 (hfa.wellFormed.final_mem hq)
      exact ⟨k, hk, (hfinals k hk).2 hq, hlabel k hk⟩
  · constructor
    · intro hr
      obtain ⟨k, hk, rfl, hs, l, hl, rfl⟩ := h.exists_of_mem_targets_toAutomaton hr
      rw [hlabel k hk, hlabel l (h.step_mem hk hs hl)]
      exact (htargets k hk s _).2 ⟨hs, l, hl, rfl⟩
    · intro hr
      obtain ⟨k, hk, rfl⟩ := (hmem q).1 (Automaton.mem_states_of_mem_targets _ hr)
      obtain ⟨hs, l, hl, rfl⟩ := (htargets k hk s r).1 hr
      rw [← hlabel k hk, ← hlabel l (h.step_mem hk hs hl)]
      exact (h.mem_targets_toAutomaton hk).2 ⟨hs, l, hl, rfl⟩

end Machine.Lawful

end FiniteState
