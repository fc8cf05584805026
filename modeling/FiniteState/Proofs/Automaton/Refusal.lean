import FiniteState.Proofs.Automaton.Obtainable
import FiniteState.Proofs.Automaton.Same

/-!
# Commands that fail

A command that fails has changed nothing, with one exception: a text that is no list of
states is kept on its cell to be shown.  Such a text counts for nothing when a word is
read, so the language stays the same in all cases.

## Main definitions

* `Automaton.Refusal` — what a command that fails leaves behind.
* `Automaton.KeepsText` — the one cell with a text to be shown, and all else as it was.

## Main results

* `Automaton.refusal_apply` — **a command that fails leaves one of two things behind**.
* `WellFormed.accepts_congr` — automata with the same transitions and marks accept the same
  words.
* `WellFormed.keepsText_rejectText`, `WellFormed.accepts_rejectText` — a rejected text shows
  on its cell and nowhere else.
* `Obtainable.unchanged_of_failure` — all of this together.
-/

namespace FiniteState.Automaton

variable {fa fb : Automaton} {c : Command} {cause : AutomatonError} {p q r : Label} {s t : Symbol}
  {text : String} {w : List Symbol}

/-! ### What is left behind -/

/-- **What a command that fails leaves behind**, with the cause that it tells. -/
inductive Refusal (fa : Automaton) : Command → AutomatonError → Automaton → Prop
  /-- Nothing has changed, and the cause is not a rejected text. -/
  | unchanged {c : Command} {cause : AutomatonError} :
    (∀ text, cause ≠ .invalidTransitionText text) → Refusal fa c cause fa
  /-- A text was rejected, and stays on the cell that was to be edited. -/
  | rejectText {q : Label} {s : Symbol} (text : String) :
    q ∈ fa.states → s ∈ fa.alphabet →
      Refusal fa (.updateTransition q s text) (.invalidTransitionText text)
        (fa.rejectText q s text)

/-- An edit that fails changes nothing. -/
theorem Refusal.edited {changed : Bool} {result : Except AutomatonError Automaton}
    (hcause : ∀ text, result ≠ .error (.invalidTransitionText text))
    (h : (fa.edited changed result).report = .error cause) :
    fa.Refusal c cause (fa.edited changed result).automaton := by
  cases result with
  | ok fb => cases h
  | error cause' =>
    cases h
    exact .unchanged fun text heq => hcause text (congrArg _ heq)

/-- So does a construction. -/
theorem Refusal.replaced {result : Except AutomatonError Automaton}
    (hcause : ∀ text, result ≠ .error (.invalidTransitionText text))
    (h : (fa.replaced result).report = .error cause) :
    fa.Refusal c cause (fa.replaced result).automaton := by
  obtain ⟨changed, heq⟩ := exists_replaced_eq_edited fa result
  rw [heq] at h ⊢
  exact Refusal.edited hcause h

theorem refusal_updateTransition (h : (fa.updateTransition q s text).report = .error cause) :
    fa.Refusal (.updateTransition q s text) cause (fa.updateTransition q s text).automaton := by
  unfold updateTransition at h ⊢
  split at h
  · rename_i hq
    cases h
    rw [if_pos hq]
    exact .unchanged fun _ heq => by cases heq
  rename_i hq
  rw [if_neg hq]
  split at h
  · rename_i hs
    cases h
    rw [if_pos hs]
    exact .unchanged fun _ heq => by cases heq
  rename_i hs
  rw [if_neg hs]
  split at h
  · cases h
  · cases h
    simp only [Bool.not_eq_true', Bool.not_eq_false] at hq hs
    exact .rejectText text (fa.hasState_iff.1 hq) (fa.hasSymbol_iff.1 hs)

/-- **A command that fails leaves one of two things behind.** -/
theorem refusal_apply (h : (fa.apply c).report = .error cause) :
    fa.Refusal c cause (fa.apply c).automaton := by
  cases c with
  | addState q =>
    refine Refusal.edited (fun text heq => ?_) h
    unfold addState at heq
    split at heq <;> cases heq
  | deleteState q =>
    rw [apply] at h
    split at h <;> cases h
  | addSymbol s =>
    refine Refusal.edited (fun text heq => ?_) h
    unfold addSymbol at heq
    split at heq <;> cases heq
  | deleteSymbol s =>
    rw [apply] at h
    split at h <;> cases h
  | setInitial q =>
    refine Refusal.edited (fun text heq => ?_) h
    unfold setInitial at heq
    split at heq <;> cases heq
  | addFinal q =>
    refine Refusal.edited (fun text heq => ?_) h
    unfold addFinal at heq
    split at heq <;> cases heq
  | removeFinal q => cases h
  | updateTransition q s text => exact refusal_updateTransition h
  | determinize => cases h
  | minimize =>
    refine Refusal.replaced (fun text heq => ?_) h
    unfold minimize at heq
    dsimp only at heq
    split at heq
    · split at heq <;> cases heq
    · cases heq
  | union other =>
    refine Refusal.replaced (fun text heq => ?_) h
    unfold union at heq
    split at heq <;> cases heq
  | intersection other =>
    refine Refusal.replaced (fun text heq => ?_) h
    unfold intersection at heq
    split at heq <;> cases heq

/-! ### A rejected text -/

/-- **The cell holds the text as that of a rejected edit, and all else is as it was.** -/
structure KeepsText (fa fb : Automaton) (q : Label) (s : Symbol) (text : String) : Prop where
  /-- The states are as they were. -/
  states : fb.states = fa.states
  /-- So are the symbols. -/
  alphabet : fb.alphabet = fa.alphabet
  /-- So is the initial state. -/
  initial : fb.initial = fa.initial
  /-- So are the accepting states. -/
  finals : fb.finals = fa.finals
  /-- So is the flag. -/
  determinized : fb.determinized = fa.determinized
  /-- The cell has its targets, and the text to be shown. -/
  cell : ∃ c, fa.cell? q s = some c ∧ fb.cell? q s = some ⟨c.targets, some text⟩
  /-- All other cells are as they were. -/
  other : ∀ p t, (p, t) ≠ (q, s) → fb.cell? p t = fa.cell? p t

theorem targets_rejectText (text : String) (p : Label) (t : Symbol) :
    (fa.rejectText q s text).targets p t = fa.targets p t := by
  rw [rejectText, targets_modifyCell]
  split
  · unfold targets
    cases fa.cell? p t <;> rfl
  · rfl

theorem path_congr (htargets : ∀ q s, fa.targets q s = fb.targets q s) :
    fa.Path p w r ↔ fb.Path p w r :=
  ⟨fun h => h.mono fun hr => htargets _ _ ▸ hr, fun h => h.mono fun hr => (htargets _ _).symm ▸ hr⟩

namespace WellFormed

/-- Automata with the same transitions and marks accept the same words. -/
theorem accepts_congr (hfa : fa.WellFormed) (hfb : fb.WellFormed)
    (htargets : ∀ q s, fa.targets q s = fb.targets q s) (hinitial : fa.initial = fb.initial)
    (hfinals : fa.finals = fb.finals) : fa.accepts w = fb.accepts w := by
  rw [Bool.eq_iff_iff, hfa.accepts_iff, hfb.accepts_iff]
  simp only [AcceptsFrom, path_congr htargets, hinitial, hfinals]

theorem keepsText_rejectText (h : fa.WellFormed) (hq : q ∈ fa.states) (hs : s ∈ fa.alphabet)
    (text : String) : fa.KeepsText (fa.rejectText q s text) q s text where
  states := states_modifyCell ..
  alphabet := rfl
  initial := rfl
  finals := rfl
  determinized := rfl
  cell := by
    obtain ⟨c, hc⟩ := h.exists_cell_iff.2 ⟨hq, hs⟩
    refine ⟨c, hc, ?_⟩
    rw [Automaton.rejectText, cell?_modifyCell, hc, Option.map_some, if_pos ⟨rfl, rfl⟩]
  other p t hne := by
    have hother : ¬ (p = q ∧ t = s) := fun heq => hne (Prod.ext heq.1 heq.2)
    rw [Automaton.rejectText, cell?_modifyCell]
    simp only [if_neg hother, Option.map_id']

theorem accepts_rejectText (h : fa.WellFormed) :
    (fa.rejectText q s text).accepts w = fa.accepts w :=
  (h.rejectText q s text).accepts_congr h (targets_rejectText text) rfl rfl

end WellFormed

/-! ### All commands -/

/-- **A command that fails has changed nothing**, except that a rejected text is kept on the
cell that was to be edited.  In all cases the same words are accepted as before. -/
theorem Obtainable.unchanged_of_failure (h : fa.Obtainable)
    (hfail : (fa.apply c).report = .error cause) :
    ((∀ text, cause ≠ .invalidTransitionText text) → (fa.apply c).automaton = fa) ∧
      (∀ text, cause = .invalidTransitionText text → ∃ q s, c = .updateTransition q s text ∧
        fa.KeepsText (fa.apply c).automaton q s text) ∧
      ∀ w, (fa.apply c).automaton.accepts w = fa.accepts w := by
  have hrefusal := refusal_apply hfail
  generalize (fa.apply c).automaton = fb at hrefusal ⊢
  cases hrefusal with
  | unchanged hcause =>
    exact ⟨fun _ => rfl, fun text heq => absurd heq (hcause text), fun w => rfl⟩
  | @rejectText q s text hq hs =>
    refine ⟨fun hcause => absurd rfl (hcause text), fun text' heq => ?_, fun w => ?_⟩
    · obtain rfl := AutomatonError.invalidTransitionText.inj heq
      exact ⟨q, s, rfl, h.wellFormed.keepsText_rejectText hq hs text⟩
    · exact h.wellFormed.accepts_rejectText

/-- The targets of the start state of `S -> aS | a` are edited to a text that begins with a
comma. -/
theorem unchanged_of_failure_comma :
    ((ofDraft (.ofText "S -> aS | a")).apply (.updateTransition "S" 'a' ",S")).report =
        .error (.invalidTransitionText ",S") ∧
      (ofDraft (.ofText "S -> aS | a")).KeepsText
        ((ofDraft (.ofText "S -> aS | a")).apply (.updateTransition "S" 'a' ",S")).automaton
        "S" 'a' ",S" ∧
      ((ofDraft (.ofText "S -> aS | a")).apply
          (.updateTransition "S" 'a' ",S")).automaton.accepts ['a'] =
        (ofDraft (.ofText "S -> aS | a")).accepts ['a'] := by
  have hfail : ((ofDraft (.ofText "S -> aS | a")).apply
      (.updateTransition "S" 'a' ",S")).report = .error (.invalidTransitionText ",S") := rfl
  obtain ⟨-, hrejected, hlang⟩ := (Obtainable.ofText "S -> aS | a").unchanged_of_failure hfail
  obtain ⟨q, s, hcommand, hkeeps⟩ := hrejected ",S" rfl
  cases hcommand
  exact ⟨hfail, hkeeps, hlang ['a']⟩

end FiniteState.Automaton
