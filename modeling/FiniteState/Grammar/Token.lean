import FiniteState.Diagnostic
import FiniteState.Symbol
import FiniteState.Text.Blank

/-!
# Tokens of grammar text

A line of grammar text consists of arrows, bars, the marker of the empty word, terminals and
nonterminals, with any blank characters between them.  The arrow `->` is the only token of two
characters, and these stand next to each other.

## Main definitions

* `GrammarError` — what can be wrong with a grammar.
* `Token` — the tokens.
* `Token.ofText` — the tokens of a line.
* `Token.display` — a token as text.
-/

namespace FiniteState

/-- The ways in which a text is no grammar. -/
inductive GrammarError
  /-- There are no rules. -/
  | emptyGrammar
  /-- The character belongs to no token. -/
  | unexpectedCharacter (c : Char)
  /-- The rule does not begin with a nonterminal. -/
  | missingHead
  /-- The nonterminal is not followed by an arrow. -/
  | missingArrow
  /-- There is an arrow in a right-hand side. -/
  | unexpectedArrow
  /-- There is nothing where an alternative should be. -/
  | emptyAlternative
  /-- The alternative is no right-hand side. -/
  | malformedAlternative (text : String)
  /-- A nonterminal other than the start symbol derives the empty word. -/
  | epsilonOutsideStart (head : Symbol)
  /-- The nonterminal leads to a start symbol that derives the empty word. -/
  | reentersNullableStart (head : Symbol)
  deriving DecidableEq, Repr

namespace GrammarError

/-- The two rules about the empty word are matters of meaning, and the rest is malformed text. -/
def kind : GrammarError → ErrorKind
  | epsilonOutsideStart _ | reentersNullableStart _ => .semantic
  | emptyGrammar | unexpectedCharacter _ | missingHead | missingArrow | unexpectedArrow
  | emptyAlternative | malformedAlternative _ => .syntactic

/-- The wording of a cause. -/
def wording : GrammarError → String
  | emptyGrammar => "The grammar has no productions"
  | unexpectedCharacter c => "Unexpected character `" ++ String.ofList [c] ++ "`"
  | missingHead => "A production must start with an uppercase nonterminal"
  | missingArrow => "Expected `->` after the nonterminal"
  | unexpectedArrow => "Unexpected `->` in a right-hand side"
  | emptyAlternative => "Empty alternative, use `&` for the empty word"
  | malformedAlternative text =>
    "`" ++ text ++ "` is not a terminal optionally followed by a nonterminal"
  | epsilonOutsideStart head =>
    "`" ++ String.ofList [head] ++
      "` derives `&`, only the start symbol may derive the empty word"
  | reentersNullableStart head =>
    "`" ++ String.ofList [head] ++ "` leads back to the start symbol, " ++
      "which must not happen when the start symbol derives `&`"

instance : Diagnostic GrammarError := ⟨kind, wording⟩

end GrammarError

/-- A token of grammar text. -/
inductive Token
  /-- The arrow between a nonterminal and its alternatives. -/
  | arrow
  /-- The bar between two alternatives. -/
  | bar
  /-- The marker of the empty word. -/
  | epsilon
  /-- A nonterminal. -/
  | nonterminal (n : Symbol)
  /-- A terminal. -/
  | terminal (t : Symbol)
  deriving DecidableEq, Repr

namespace Token

/-- The token of a single character, if there is one. -/
def ofChar? (c : Char) : Option Token :=
  if c = '|' then some .bar
  else if Symbol.isEpsilon c then some .epsilon
  else if Symbol.isTerminal c then some (.terminal c)
  else if Symbol.isNonterminal c then some (.nonterminal c)
  else none

/-- The tokens of a line.  The first character that belongs to no token is reported. -/
def ofText : List Char → Except GrammarError (List Token)
  | [] => .ok []
  | '-' :: '>' :: rest => (ofText rest).map (.arrow :: ·)
  | c :: rest =>
    match ofChar? c with
    | some token => (ofText rest).map (token :: ·)
    | none => if Text.isBlank c then ofText rest else .error (.unexpectedCharacter c)

/-- A token as text. -/
def display : Token → String
  | .arrow => "->"
  | .bar => "|"
  | .epsilon => String.ofList [Symbol.epsilon]
  | .nonterminal n => String.ofList [n]
  | .terminal t => String.ofList [t]

end Token

end FiniteState
