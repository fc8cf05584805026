/-!
# Symbols

Words are lists of characters.  Three classes of characters matter: the *terminals* that words are
made of, the *nonterminals* that name the variables of a grammar, and the marker `&`, which stands
for the empty word on a transition or in a production and is never read from a word.

## Main definitions

* `Symbol` — a character of a word.
* `Symbol.epsilon` — the marker of the empty word.
* `Symbol.isTerminal`, `Symbol.isNonterminal` — the two classes of names.
-/

namespace FiniteState

/-- A symbol is a single character. -/
abbrev Symbol := Char

namespace Symbol

/-- The marker of the empty word. -/
def epsilon : Symbol := '&'

/-- The symbol is the marker of the empty word. -/
def isEpsilon (s : Symbol) : Bool := s == epsilon

/-- Terminals are the lowercase letters and the digits of ASCII. -/
def isTerminal (s : Symbol) : Bool := s.isLower || s.isDigit

/-- Nonterminals are the uppercase letters of ASCII. -/
def isNonterminal (s : Symbol) : Bool := s.isUpper

theorem isEpsilon_iff {s : Symbol} : isEpsilon s = true ↔ s = epsilon := by
  simp [isEpsilon]

@[simp] theorem isTerminal_epsilon : isTerminal epsilon = false := by decide

/-- A transition can carry a terminal or the marker. -/
def isTransitionSymbol (s : Symbol) : Bool := isTerminal s || isEpsilon s

theorem isTransitionSymbol_iff {s : Symbol} :
    isTransitionSymbol s = true ↔ isTerminal s = true ∨ s = epsilon := by
  simp [isTransitionSymbol, isEpsilon]

end Symbol

end FiniteState
