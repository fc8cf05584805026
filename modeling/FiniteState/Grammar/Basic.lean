import FiniteState.Symbol
import FiniteState.Automaton.Basic

/-!
# Right-regular grammars

A right-regular grammar replaces a nonterminal by a terminal, by a terminal and a nonterminal, or by
the empty word.  Nonterminals and the alternatives of each are kept in order of appearance.

## Main definitions

* `Production` — the right-hand side of a rule.
* `Grammar` — the rules with their start symbol, and the text that they were read from.
* `Grammar.terminals`, `Grammar.nonterminals` — the symbols that occur.
* `Grammar.Derives` — the words of a grammar.
* `Grammar.display` — the rules as text, those of the start symbol first.
* `Grammar.same` — equality up to order.
-/

namespace FiniteState

/-- The right-hand side of a rule. -/
inductive Production
  /-- The empty word. -/
  | empty
  /-- A terminal. -/
  | terminal (t : Symbol)
  /-- A terminal and a nonterminal. -/
  | step (t n : Symbol)
  deriving DecidableEq, Repr

namespace Production

/-- The terminal of a right-hand side; the empty word is written with its marker. -/
def terminalSymbol : Production → Symbol
  | .empty => Symbol.epsilon
  | .terminal t => t
  | .step t _ => t

/-- The nonterminal of a right-hand side, if it has one. -/
def nonterminal? : Production → Option Symbol
  | .step _ n => some n
  | _ => none

/-- A right-hand side as text. -/
def display : Production → String
  | .empty => String.ofList [Symbol.epsilon]
  | .terminal t => String.ofList [t]
  | .step t n => String.ofList [t, n]

end Production

/-- A right-regular grammar. -/
structure Grammar where
  /-- The text that the grammar was read from. -/
  text : String
  /-- The nonterminal that derivations start from. -/
  start : Symbol
  /-- The alternatives of each nonterminal that has some. -/
  productions : List (Symbol × List Production)
  deriving DecidableEq

namespace Grammar

/-- The alternatives of a nonterminal. -/
def alternatives (g : Grammar) (head : Symbol) : List Production :=
  (g.productions.lookup head).getD []

/-- The terminals, and the marker if a nonterminal derives the empty word, in order of
appearance. -/
def terminals (g : Grammar) : List Symbol :=
  (g.productions.flatMap fun (_, alts) => alts.map Production.terminalSymbol).eraseDups

/-- The nonterminals, in order of appearance. -/
def nonterminals (g : Grammar) : List Symbol :=
  (g.productions.flatMap fun (head, alts) =>
    head :: alts.filterMap Production.nonterminal?).eraseDups

/-- The start symbol derives the empty word. -/
def derivesEmpty (g : Grammar) : Bool := (g.alternatives g.start).contains .empty

/-- The word can be derived from the nonterminal. -/
inductive DerivesFrom (g : Grammar) : Symbol → List Symbol → Prop
  | empty {head : Symbol} : .empty ∈ g.alternatives head → DerivesFrom g head []
  | terminal {head t : Symbol} : .terminal t ∈ g.alternatives head → DerivesFrom g head [t]
  | step {head t n : Symbol} {word : List Symbol} :
    .step t n ∈ g.alternatives head → DerivesFrom g n word → DerivesFrom g head (t :: word)

/-- The word can be derived from the start symbol. -/
def Derives (g : Grammar) (word : List Symbol) : Prop := DerivesFrom g g.start word

/-- The line of a nonterminal; a nonterminal without alternatives has none. -/
def displayHead (g : Grammar) (head : Symbol) : String :=
  match g.alternatives head with
  | [] => ""
  | alts =>
    String.ofList [head] ++ " -> " ++ " | ".intercalate (alts.map Production.display) ++ "\n"

/-- The rules as text, with a line per nonterminal, the start symbol first. -/
def display (g : Grammar) : String :=
  let others := (g.productions.map (·.1)).filter (· != g.start)
  String.join ((g.start :: others).map g.displayHead)

/-- Two grammars are the same up to the order of their rules and symbols.  The texts count. -/
def same (g h : Grammar) : Bool :=
  g.text == h.text && g.start == h.start &&
    Automaton.sameMembers g.nonterminals h.nonterminals &&
    Automaton.sameMembers g.terminals h.terminals &&
    Automaton.sameEntries Automaton.sameMembers g.productions h.productions

end Grammar

end FiniteState
