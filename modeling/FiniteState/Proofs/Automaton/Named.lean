import FiniteState.Proofs.Automaton.Change
import FiniteState.Proofs.Automaton.Minimal
import FiniteState.Proofs.Automaton.Powerset
import FiniteState.Proofs.Automaton.Product
import FiniteState.Proofs.Label.Valid

/-!
# Labels and symbols of automata

The states of an automaton are named by labels that an editor accepts, and its symbols
are terminals or the marker of the empty word.  An editor checks the names that it is
given.  A construction may describe its states by any texts while it is at work, but
renames them at the end, and a new name is valid whatever the old one was.

## Main definitions

* `Automaton.Named` — labels are valid, and symbols are terminals or the marker.

## Main results

* `named_renameWith` — **renaming makes the labels valid**.
* `Named.setTargets`, `Named.determinize`, `named_minimize`, `Named.union`,
  `named_intersection` — edits and constructions keep names as they should be.
* `Named.change` — **every change that a command can make keeps them so**.
-/

namespace FiniteState.Automaton

/-- Labels are valid, and symbols are terminals or the marker. -/
structure Named (fa : Automaton) : Prop where
  /-- Every label is one that an editor accepts. -/
  label : ∀ q ∈ fa.states, q.Valid
  /-- Every symbol is one that a transition can carry. -/
  symbol : ∀ s ∈ fa.alphabet, Symbol.isTransitionSymbol s = true

variable {fa fb : Automaton} {q : Label} {s : Symbol}

theorem named_empty : empty.Named := ⟨by simp [empty, states], by simp [empty]⟩

/-- **Renaming makes the labels valid**, whatever they were. -/
theorem named_renameWith (pool : LabelPool)
    (hsymbols : ∀ s ∈ fa.alphabet, Symbol.isTransitionSymbol s = true) :
    (fa.renameWith pool).1.Named := by
  refine ⟨fun l hl => ?_, hsymbols⟩
  rw [renameWith_eq, states_relabel] at hl
  obtain ⟨q, hq, rfl⟩ := List.mem_map.1 hl
  exact LabelPool.valid_of_mem_names (mem_names pool hq)

theorem named_rename (hsymbols : ∀ s ∈ fa.alphabet, Symbol.isTransitionSymbol s = true) :
    fa.rename.Named :=
  named_renameWith .full hsymbols

namespace Named

/-- An automaton with no other states and symbols is named as it should be. -/
theorem mono (h : fa.Named) (hstates : fb.states ⊆ fa.states)
    (halphabet : fb.alphabet ⊆ fa.alphabet) : fb.Named :=
  ⟨fun q hq => h.label q (hstates hq), fun s hs => h.symbol s (halphabet hs)⟩

/-! ### Restriction -/

theorem keepStates (h : fa.Named) (p : Label → Bool) : (fa.keepStates p).Named := by
  refine h.mono (fun q hq => ?_) fun _ hs => hs
  rw [states_keepStates] at hq
  exact List.mem_of_mem_filter hq

theorem keepSymbols (h : fa.Named) (p : Symbol → Bool) : (fa.keepSymbols p).Named := by
  refine h.mono (fun q hq => ?_) fun _ hs => List.mem_of_mem_filter hs
  rwa [states_keepSymbols] at hq

theorem removeUseless (h : fa.Named) : fa.removeUseless.Named :=
  (h.keepStates _).keepSymbols _

/-! ### Edits -/

theorem insertState (h : fa.Named) (hq : q.Valid) : (fa.insertState q).Named := by
  refine ⟨fun r hr => ?_, fun s hs => ?_⟩
  · rcases (mem_states_insertState fa).1 hr with rfl | hr
    · exact hq
    · exact h.label r hr
  · rw [alphabet_insertState] at hs
    exact h.symbol s hs

theorem foldl_insertState (h : fa.Named) {labels : List Label} (hlabels : ∀ l ∈ labels, l.Valid) :
    (labels.foldl Automaton.insertState fa).Named := by
  induction labels generalizing fa with
  | nil => exact h
  | cons l labels ih =>
    obtain ⟨hl, hlabels⟩ := List.forall_mem_cons.1 hlabels
    exact ih (h.insertState hl) hlabels

theorem insertSymbol (h : fa.Named) (hs : Symbol.isTransitionSymbol s = true) :
    (fa.insertSymbol s).Named := by
  refine ⟨fun q hq => ?_, fun t ht => ?_⟩
  · rw [states_insertSymbol] at hq
    exact h.label q hq
  · rcases (mem_alphabet_insertSymbol fa).1 ht with ht | rfl
    · exact h.symbol t ht
    · exact hs

theorem modifyCell (h : fa.Named) (q : Label) (s : Symbol) (f : Cell → Cell) :
    (fa.modifyCell q s f).Named := by
  refine h.mono (fun r hr => ?_) fun _ hs => hs
  rwa [states_modifyCell] at hr

/-- The targets that a cell is given become states, so their labels matter. -/
theorem setTargets (h : fa.Named) (q : Label) (s : Symbol) {targets : LabelSet}
    (htargets : ∀ l ∈ targets, l.Valid) : (fa.setTargets q s targets).Named := by
  have hgrown := (h.foldl_insertState htargets).modifyCell q s fun _ => .ofTargets targets
  exact hgrown.mono (fun _ hr => hr) fun _ hs => hs

theorem insertFinal (h : fa.Named) (q : Label) : (fa.insertFinal q).Named := by
  unfold Automaton.insertFinal
  split
  · exact h
  · exact h.mono (fun _ hr => hr) fun _ hs => hs

/-! ### Constructions -/

/-- Without an initial state the powerset machine has no states, and otherwise its
states get new names. -/
theorem determinize (h : fa.Named) (hwf : fa.WellFormed) : fa.determinize.Named := by
  have hsymbols : ∀ s ∈ fa.powerset.alphabet, Symbol.isTransitionSymbol s = true :=
    fun s hs => h.symbol s (List.mem_of_mem_filter hs)
  unfold Automaton.determinize
  dsimp only
  split
  · rename_i hnone
    refine ⟨fun q hq => ?_, hsymbols⟩
    rw [hwf.lawful_powerset.states_toAutomaton,
      states_powerset_of_initial_none (Option.isNone_iff_eq_none.1 hnone)] at hq
    exact absurd hq List.not_mem_nil
  · exact named_rename fun s hs => hsymbols s (List.mem_of_mem_filter hs)

end Named

theorem named_minimize (hsymbols : ∀ s ∈ fa.alphabet, Symbol.isTransitionSymbol s = true)
    (hok : fa.minimize = .ok fb) : fb.Named := by
  have hflag := determinized_of_minimize_eq_ok hok
  cases hp : fa.live.initial with
  | none =>
    rw [minimize_of_initial_none hflag hp] at hok
    rw [← Except.ok.inj hok]
    exact named_empty.mono (fun _ hq => hq) fun _ hs => hs
  | some p =>
    rw [minimize_of_initial_some hflag hp] at hok
    rw [← Except.ok.inj hok]
    exact named_rename fun s hs => hsymbols s (mem_alphabet_of_live hs)

/-- The left operand of a union is renamed, and the new states take fresh labels. -/
theorem Named.union (hfa : fa.Named) (hfb : fb.Named) {fc : Automaton}
    (hok : fa.union fb = .ok fc) : fc.Named := by
  obtain ⟨pool, i, j, -, rfl⟩ := union_eq_ok hok
  have hleft := named_renameWith pool hfa.symbol
  refine ⟨fun q hq => ?_, fun s hs => ?_⟩
  · rcases mem_states_joined.1 hq with hq | hq | rfl | rfl
    · exact hleft.label q hq
    · exact hfb.label q hq
    · exact Label.valid_nth i
    · exact Label.valid_nth j
  · rcases mem_joinedAlphabet.1 hs with hs | hs | rfl
    · exact hleft.symbol s hs
    · exact hfb.symbol s hs
    · rfl

theorem named_intersection (hsymbols : ∀ s ∈ fa.alphabet, Symbol.isTransitionSymbol s = true)
    {fc : Automaton} (hok : fa.intersection fb = .ok fc) : fc.Named := by
  obtain ⟨-, rfl⟩ := intersection_eq_ok hok
  exact named_rename fun s hs => hsymbols s (List.mem_of_mem_filter hs)

/-! ### Commands -/

/-- **Every change that a command can make keeps labels and symbols as they should be.** -/
theorem Named.change (h : fa.Named) (hwf : fa.WellFormed) {c : Command} (hchange : fa.Change c fb)
    (hc : ∀ other, c.operand? = some other → other.Named) : fb.Named := by
  cases hchange with
  | unchanged => exact h
  | addState hq => exact h.insertState (Label.isValid_iff.1 hq)
  | deleteState => exact h.keepStates _
  | addSymbol hs => exact h.insertSymbol hs
  | deleteSymbol => exact h.keepSymbols _
  | setInitial | removeFinal => exact h.mono (fun _ hq => hq) fun _ hs => hs
  | addFinal => exact h.insertFinal _
  | setTargets htargets => exact h.setTargets _ _ (Cell.valid_of_mem_parseTargets htargets)
  | rejectText => exact h.modifyCell _ _ _
  | determinize => exact h.determinize hwf
  | minimize hok => exact named_minimize h.symbol hok
  | union hok => exact h.union (hc _ rfl) hok
  | intersection hok => exact named_intersection h.symbol hok

end FiniteState.Automaton
