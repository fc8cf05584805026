import FiniteState.Proofs.Automaton.Intersection
import FiniteState.Proofs.Automaton.Obtainable
import FiniteState.Proofs.Regex.Trim

/-!
# The marker and the flag

An automaton that is flagged as determinized should have no column for the marker of the
empty word.  The constructions see to that: determinization and minimization leave the marker
out whatever was done before, an intersection has it only if both operands have it, and a union
is not flagged.  The edits keep to it as well, with one exception.  A command that adds the
marker to a flagged automaton gives it an empty column and leaves the flag set, where an edit
of a cell would clear it.

So the rule holds along every run up to the first such command, and no longer.  The other
automata that a run refers to do not matter for that.

## Main definitions

* `Automaton.MarkerExcluded` — if the automaton is flagged, then the marker has no column.
* `Automaton.AddsMarker` — the command adds the marker to a flagged automaton.
* `Automaton.Built` — the automata that runs begin with.
* `Automaton.Step` — one step of a run, in which only some commands are allowed.

## Main results

* `epsilon_notMem_determinize`, `WellFormed.epsilon_notMem_minimize`,
  `mem_alphabet_intersection` — what the constructions leave of the alphabet.
* `MarkerExcluded.change` — **all other changes keep the marker out of flagged automata**.
* `obtainable_iff_run` — runs lead to all automata that can be obtained.
* `markerExcluded_of_run` — **the rule holds until the marker is added to a flagged automaton**.
-/

namespace FiniteState.Automaton

open Relation

variable {fa fb fc : Automaton} {c : Command} {s : Symbol}
  {allowed : Automaton → Command → Prop}

/-! ### The rule -/

/-- If the automaton is flagged as determinized, then the marker has no column. -/
def MarkerExcluded (fa : Automaton) : Prop :=
  fa.determinized = true → Symbol.epsilon ∉ fa.alphabet

/-- The command adds the marker to a flagged automaton. -/
def AddsMarker (fa : Automaton) (c : Command) : Prop :=
  fa.determinized = true ∧ c = .addSymbol Symbol.epsilon

theorem markerExcluded_of_unflagged (h : fa.determinized = false) : fa.MarkerExcluded := by
  intro hflag
  rw [h] at hflag
  cases hflag

/-- An automaton keeps to the rule that is flagged only if another one is, and has no
symbols besides. -/
theorem MarkerExcluded.mono (h : fa.MarkerExcluded)
    (hflag : fb.determinized = true → fa.determinized = true)
    (halphabet : fb.alphabet ⊆ fa.alphabet) : fb.MarkerExcluded :=
  fun hfb hs => h (hflag hfb) (halphabet hs)

theorem MarkerExcluded.keepSymbols (h : fa.MarkerExcluded) (p : Symbol → Bool) :
    (fa.keepSymbols p).MarkerExcluded :=
  h.mono id fun _ hs => List.mem_of_mem_filter hs

/-! ### Constructions -/

/-- **Determinization leaves the marker out.** -/
theorem epsilon_notMem_determinize (fa : Automaton) :
    Symbol.epsilon ∉ fa.determinize.alphabet := by
  have hbuilt : Symbol.epsilon ∉ fa.powerset.alphabet := by
    rw [mem_alphabet_powerset]
    exact fun hs => hs.2 rfl
  unfold determinize
  dsimp only
  split
  · exact hbuilt
  · exact fun hs => hbuilt (List.mem_of_mem_filter hs)

/-- No grammar has a flagged automaton. -/
theorem determinized_ofDraft (draft : Grammar.Draft) : (ofDraft draft).determinized = false := by
  unfold ofDraft
  split <;> rfl

/-- Minimization keeps only symbols in use. -/
theorem alphabet_minimize_subset (hok : fa.minimize = .ok fb) :
    fb.alphabet ⊆ fa.live.alphabet := by
  have hflag := determinized_of_minimize_eq_ok hok
  cases hp : fa.live.initial with
  | none =>
    rw [minimize_of_initial_none hflag hp] at hok
    rw [← Except.ok.inj hok]
    exact List.nil_subset _
  | some p =>
    rw [minimize_of_initial_some hflag hp] at hok
    rw [← Except.ok.inj hok, rename_eq, alphabet_relabel]
    exact fun _ hs => hs

/-- **Minimization leaves the marker out**, as no state of a flagged automaton moves on it. -/
theorem WellFormed.epsilon_notMem_minimize (h : fa.WellFormed) (hok : fa.minimize = .ok fb) :
    Symbol.epsilon ∉ fb.alphabet := by
  intro hs
  have htrimmed := h.trimmed_live (h.deterministic (determinized_of_minimize_eq_ok hok))
  obtain ⟨q, r, hr⟩ := htrimmed.used (alphabet_minimize_subset hok hs)
  exact htrimmed.deterministic.not_silent hr

/-- **An intersection has the symbols that both operands have**, the marker among them. -/
theorem mem_alphabet_intersection (hok : fa.intersection fb = .ok fc) :
    s ∈ fc.alphabet ↔ s ∈ fa.alphabet ∧ s ∈ fb.alphabet := by
  obtain ⟨-, rfl⟩ := intersection_eq_ok hok
  exact mem_alphabet_allPairs

/-! ### Commands -/

/-- **All other changes keep the marker out of flagged automata.**  The second operand of a
union or an intersection may break the rule. -/
theorem MarkerExcluded.change (h : fa.MarkerExcluded) (hchange : fa.Change c fb)
    (hc : ¬ fa.AddsMarker c) : fb.MarkerExcluded := by
  cases hchange with
  | unchanged | deleteState | setInitial | removeFinal | rejectText => exact h
  | addState =>
    refine h.mono (fun hflag => ?_) fun s hs => ?_
    · rwa [determinized_insertState] at hflag
    · rwa [alphabet_insertState] at hs
  | addSymbol =>
    intro hflag hs
    rw [determinized_insertSymbol] at hflag
    rcases (mem_alphabet_insertSymbol fa).1 hs with hs | rfl
    · exact h hflag hs
    · exact hc ⟨hflag, rfl⟩
  | deleteSymbol => exact h.keepSymbols _
  | addFinal =>
    unfold insertFinal
    split
    · exact h
    · exact h
  | setTargets => exact markerExcluded_of_unflagged rfl
  | determinize => exact fun _ => epsilon_notMem_determinize fa
  | minimize hok =>
    exact h.mono (fun _ => determinized_of_minimize_eq_ok hok) fun _ hs =>
      mem_alphabet_of_live (alphabet_minimize_subset hok hs)
  | union hok =>
    obtain ⟨pool, i, j, -, rfl⟩ := union_eq_ok hok
    exact markerExcluded_of_unflagged rfl
  | intersection hok =>
    have hboth := (intersection_eq_ok hok).1
    exact h.mono (fun _ => (Bool.and_eq_true_iff.1 hboth).1) fun _ hs =>
      ((mem_alphabet_intersection hok).1 hs).1

/-- The marker is a symbol that an editor accepts. -/
theorem apply_addSymbol_epsilon (fa : Automaton) :
    (fa.apply (.addSymbol Symbol.epsilon)).automaton = fa.insertSymbol Symbol.epsilon := rfl

/-- The column is added, and the flag stays. -/
theorem AddsMarker.not_markerExcluded (h : fa.AddsMarker c) :
    ¬ (fa.apply c).automaton.MarkerExcluded := by
  obtain ⟨hflag, rfl⟩ := h
  rw [apply_addSymbol_epsilon]
  intro h
  refine h ?_ ((mem_alphabet_insertSymbol fa).2 (.inr rfl))
  rwa [determinized_insertSymbol]

/-! ### Runs -/

/-- **The automata that runs begin with**: the empty one, and those that a construction makes
of a regular expression, of a grammar, or of an automaton in whatever state. -/
inductive Built : Automaton → Prop
  /-- There is the automaton without states and symbols. -/
  | empty : Built .empty
  /-- A regular expression is compiled. -/
  | compile {text : List Char} {fa : Automaton} : Regex.compile text = .ok fa → Built fa
  /-- A text is read as a grammar, whether it is one or not. -/
  | ofText (text : String) : Built (.ofDraft (.ofText text))
  /-- A grammar is read off an automaton. -/
  | ofAutomaton {fa : Automaton} {g : Grammar} :
    fa.Obtainable → Grammar.ofAutomaton fa = .ok g → Built (.ofDraft (.ofGrammar g))
  /-- An automaton is determinized. -/
  | determinize {fa : Automaton} : fa.Obtainable → Built fa.determinize
  /-- An automaton is minimized. -/
  | minimize {fa fb : Automaton} : fa.Obtainable → fa.minimize = .ok fb → Built fb

/-- **One step of a run**: a command, if it is allowed for the automaton, or one of the
changes that no command makes. -/
inductive Step (allowed : Automaton → Command → Prop) (fa : Automaton) : Automaton → Prop
  /-- A command is applied, and succeeds or fails. -/
  | apply {c : Command} : allowed fa c →
    (∀ other, c.operand? = some other → other.Obtainable) → Step allowed fa (fa.apply c).automaton
  /-- The useless states are removed. -/
  | removeUseless : Step allowed fa fa.removeUseless
  /-- The unreachable states are removed. -/
  | removeUnreachable : Step allowed fa fa.removeUnreachable
  /-- The unused symbols are removed. -/
  | pruneUnusedSymbols : Step allowed fa fa.pruneUnusedSymbols
  /-- The states are renamed from a pool of any contents. -/
  | renameWith (pool : LabelPool) : Step allowed fa (fa.renameWith pool).1

theorem Built.obtainable (h : fa.Built) : fa.Obtainable := by
  cases h with
  | empty => exact .empty
  | compile h => exact .compile h
  | ofText text => exact .ofText text
  | ofAutomaton h hg => exact .ofAutomaton h hg
  | determinize h => exact h.edit .determinize rfl
  | minimize h hok =>
    have hafter := h.edit .minimize rfl
    rwa [Automaton.apply, hok] at hafter

theorem Step.obtainable (hstep : fa.Step allowed fb) (h : fa.Obtainable) : fb.Obtainable := by
  cases hstep with
  | apply _ hc => exact h.apply _ hc
  | removeUseless => exact h.removeUseless
  | removeUnreachable => exact h.removeUnreachable
  | pruneUnusedSymbols => exact h.pruneUnusedSymbols
  | renameWith pool => exact h.renameWith pool

theorem exists_run_step (h : ∃ fb, fb.Built ∧ ReflTransGen (Step allowed) fb fa)
    (hstep : fa.Step allowed fc) : ∃ fb, fb.Built ∧ ReflTransGen (Step allowed) fb fc := by
  obtain ⟨fb, hfb, hrun⟩ := h
  exact ⟨fb, hfb, hrun.tail hstep⟩

/-- **Runs lead to all automata that can be obtained**, when all commands are allowed. -/
theorem obtainable_iff_run :
    fa.Obtainable ↔ ∃ fb, fb.Built ∧ ReflTransGen (Step fun _ _ => True) fb fa := by
  constructor
  · intro h
    induction h with
    | empty => exact ⟨_, .empty, .refl⟩
    | compile h => exact ⟨_, .compile h, .refl⟩
    | ofText text => exact ⟨_, .ofText text, .refl⟩
    | ofAutomaton h hg => exact ⟨_, .ofAutomaton h hg, .refl⟩
    | apply c _ hc ih => exact exists_run_step ih (.apply trivial hc)
    | removeUseless _ ih => exact exists_run_step ih .removeUseless
    | removeUnreachable _ ih => exact exists_run_step ih .removeUnreachable
    | pruneUnusedSymbols _ ih => exact exists_run_step ih .pruneUnusedSymbols
    | renameWith pool _ ih => exact exists_run_step ih (.renameWith pool)
  · intro h
    obtain ⟨fb, hfb, hrun⟩ := h
    induction hrun with
    | refl => exact hfb.obtainable
    | tail _ hstep ih => exact hstep.obtainable ih

/-- The marker is no letter of an expression, and the automaton of a grammar is not flagged. -/
theorem Built.markerExcluded (h : fa.Built) : fa.MarkerExcluded := by
  cases h with
  | empty => exact markerExcluded_of_unflagged rfl
  | compile h =>
    obtain ⟨e, hparse, rfl⟩ := Regex.compile_eq_ok.1 h
    intro _ hs
    have hterminal := Regex.overTerminals_parse hparse _
      (Regex.PositionTable.mem_alphabet_automaton.1 hs)
    rw [Symbol.isTerminal_epsilon] at hterminal
    cases hterminal
  | ofText | ofAutomaton => exact markerExcluded_of_unflagged (determinized_ofDraft _)
  | determinize => exact fun _ => epsilon_notMem_determinize _
  | minimize h hok => exact fun _ => h.wellFormed.epsilon_notMem_minimize hok

theorem MarkerExcluded.step (h : fa.MarkerExcluded)
    (hstep : fa.Step (fun fa c => ¬ fa.AddsMarker c) fb) : fb.MarkerExcluded := by
  cases hstep with
  | apply hc _ => exact h.change (change_apply fa _) hc
  | removeUseless | pruneUnusedSymbols => exact h.keepSymbols _
  | removeUnreachable | renameWith => exact h

/-- **A flagged automaton has no column for the marker, until the marker is added to it.**
Along every run in which no command adds the marker to a flagged automaton, the rule holds, and
of the commands that may come next exactly this one breaks it. -/
theorem markerExcluded_of_run (hstart : fa.Built)
    (hrun : ReflTransGen (Step fun fa c => ¬ fa.AddsMarker c) fa fb) :
    fb.MarkerExcluded ∧ ∀ c, (fb.apply c).automaton.MarkerExcluded ↔ ¬ fb.AddsMarker c := by
  have hfb : fb.MarkerExcluded := by
    induction hrun with
    | refl => exact hstart.markerExcluded
    | tail _ hstep ih => exact ih.step hstep
  refine ⟨hfb, fun c => ⟨fun hafter hadds => ?_, fun hc => hfb.change (change_apply fb c) hc⟩⟩
  exact hadds.not_markerExcluded hafter

/-- The automaton of `a` breaks the rule once it has got the marker.  Determinized, it keeps to
the rule also with one more letter, and breaks it again when it gets the marker. -/
theorem markerExcluded_of_run_determinized :
    ∃ fa : Automaton, fa.Obtainable ∧ ¬ fa.MarkerExcluded ∧
      (fa.determinize.apply (.addSymbol 'b')).automaton.MarkerExcluded ∧
      ¬ ((fa.determinize.apply (.addSymbol 'b')).automaton.apply
        (.addSymbol Symbol.epsilon)).automaton.MarkerExcluded := by
  have hcompile : Regex.compile ['a'] =
      .ok (Regex.PositionTable.ofExpr (.letter 'a')).automaton := rfl
  have hadds : (Regex.PositionTable.ofExpr (.letter 'a')).automaton.AddsMarker
      (.addSymbol Symbol.epsilon) := ⟨rfl, rfl⟩
  have hmarked := (Obtainable.compile hcompile).apply (.addSymbol Symbol.epsilon)
    (by simp [Command.operand?])
  refine ⟨_, hmarked, hadds.not_markerExcluded, ?_⟩
  have hletter : 'b' ≠ Symbol.epsilon := by decide
  obtain ⟨hrule, hnext⟩ := markerExcluded_of_run (.determinize hmarked)
    (.single (.apply (fun hadds => hletter (Command.addSymbol.inj hadds.2))
      (by simp [Command.operand?])))
  refine ⟨hrule, fun hafter => (hnext _).1 hafter ⟨?_, rfl⟩⟩
  exact (determinized_insertSymbol _ 'b').trans (determinized_determinize _)

/-- The automaton of `a` is flagged, and after one command it has a column for the marker,
too. -/
theorem exists_flagged_marked :
    ∃ fa : Automaton, Regex.compile ['a'] = .ok fa ∧
      (fa.apply (.addSymbol Symbol.epsilon)).automaton.Obtainable ∧
      (fa.apply (.addSymbol Symbol.epsilon)).automaton.determinized = true ∧
      Symbol.epsilon ∈ (fa.apply (.addSymbol Symbol.epsilon)).automaton.alphabet := by
  have hcompile : Regex.compile ['a'] =
      .ok (Regex.PositionTable.ofExpr (.letter 'a')).automaton := rfl
  refine ⟨_, hcompile,
    (Obtainable.compile hcompile).apply _ (by simp [Command.operand?]), ?_, ?_⟩
  · rw [apply_addSymbol_epsilon, determinized_insertSymbol]
    rfl
  · rw [apply_addSymbol_epsilon]
    exact (mem_alphabet_insertSymbol _).2 (.inr rfl)

end FiniteState.Automaton
