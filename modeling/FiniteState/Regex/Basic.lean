import FiniteState.Symbol

/-!
# Regular expressions

Regular expressions over letters of any type.  Expressions over symbols are what a text is parsed
into; expressions over numbers arise when the letters of an expression are numbered from left to
right.

## Main definitions

* `Regex.Expr` — the expressions.
* `Regex.Expr.Matches` — the words of an expression.
* `Regex.Expr.letters` — the letters from left to right; `Regex.Expr.size` — how many there are.
* `Regex.Expr.number` — the expression with its letters replaced by their places.
* `Regex.Expr.subterms` — the expressions that an expression is made of.
-/

namespace FiniteState.Regex

/-- A regular expression over letters of a type. -/
inductive Expr (α : Type)
  /-- The empty word. -/
  | empty
  /-- One letter. -/
  | letter (a : α)
  /-- Any number of repetitions. -/
  | star (inner : Expr α)
  /-- One or the other. -/
  | alternation (left right : Expr α)
  /-- One after the other. -/
  | concatenation (left right : Expr α)
  deriving DecidableEq, Repr

namespace Expr

variable {α β : Type}

/-- The word belongs to the language of the expression. -/
inductive Matches : Expr α → List α → Prop
  | empty : Matches .empty []
  | letter (a : α) : Matches (.letter a) [a]
  | starNil (e : Expr α) : Matches (.star e) []
  | starAppend {e : Expr α} {u v : List α} :
    Matches e u → Matches (.star e) v → Matches (.star e) (u ++ v)
  | left {e f : Expr α} {w : List α} : Matches e w → Matches (.alternation e f) w
  | right {e f : Expr α} {w : List α} : Matches f w → Matches (.alternation e f) w
  | append {e f : Expr α} {u v : List α} :
    Matches e u → Matches f v → Matches (.concatenation e f) (u ++ v)

/-- The letters, from left to right. -/
def letters : Expr α → List α
  | .empty => []
  | .letter a => [a]
  | .star e => e.letters
  | .alternation e f => e.letters ++ f.letters
  | .concatenation e f => e.letters ++ f.letters

/-- The number of letters. -/
def size : Expr α → Nat
  | .empty => 0
  | .letter _ => 1
  | .star e => e.size
  | .alternation e f => e.size + f.size
  | .concatenation e f => e.size + f.size

@[simp] theorem length_letters (e : Expr α) : e.letters.length = e.size := by
  induction e with
  | empty | letter => rfl
  | star e ih => exact ih
  | alternation e f ihe ihf => simp [letters, size, ihe, ihf]
  | concatenation e f ihe ihf => simp [letters, size, ihe, ihf]

/-- The expression whose letters are numbered from left to right, beginning with a given number. -/
def numberFrom : Expr α → Nat → Expr Nat
  | .empty, _ => .empty
  | .letter _, n => .letter n
  | .star e, n => .star (e.numberFrom n)
  | .alternation e f, n => .alternation (e.numberFrom n) (f.numberFrom (n + e.size))
  | .concatenation e f, n => .concatenation (e.numberFrom n) (f.numberFrom (n + e.size))

/-- The expression whose letters are numbered from left to right, beginning with zero. -/
def number (e : Expr α) : Expr Nat := e.numberFrom 0

/-- The expressions that an expression is made of: those of its parts from left to right, and then
itself. -/
def subterms : Expr α → List (Expr α)
  | .empty => [.empty]
  | .letter a => [.letter a]
  | .star e => e.subterms ++ [.star e]
  | .alternation e f => e.subterms ++ f.subterms ++ [.alternation e f]
  | .concatenation e f => e.subterms ++ f.subterms ++ [.concatenation e f]

end Expr

end FiniteState.Regex
