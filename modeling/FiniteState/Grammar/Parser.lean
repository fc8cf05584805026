import FiniteState.Grammar.Basic
import FiniteState.Grammar.Token

/-!
# Reading grammars

Each rule stands on a line of its own, which may go on over several lines of the text: a line that
starts with a bar continues the one before it, and so does any line after one that ends in a bar or
an arrow.  Blank lines are passed over.  The nonterminal of the first rule is the start symbol, and
a nonterminal may have several rules.

Reading is all or nothing: every malformed rule is reported, and if there is none, every rule about
the empty word that is broken.

## Main definitions

* `Grammar.logicalLines` — the lines of a text, joined where they continue one another.
* `Grammar.Rule` — a rule with the line that it starts on.
* `Grammar.parseRule` — the rule of a line.
* `Grammar.entries` — the alternatives of each nonterminal.
* `Grammar.parse` — the grammar of a text.
* `Grammar.Draft` — a text with its grammar, if it has one.
-/

namespace FiniteState.Grammar

/-! ### Lines -/

/-- A line continues the one before it. -/
def continues (previous line : List Char) : Bool :=
  line.head? == some '|' || previous.getLast? == some '|' || ['-', '>'].isSuffixOf previous

/-- Joins lines that continue one another, with a blank between them, under the number of the first.
The first argument is the line that is being joined. -/
def joinLines : Nat × List Char → List (Nat × List Char) → List (Nat × List Char)
  | current, [] => [current]
  | (number, previous), (next, line) :: rest =>
    if continues previous line then joinLines (number, previous ++ ' ' :: line) rest
    else (number, previous) :: joinLines (next, line) rest

/-- The lines of a text that are not blank, trimmed and numbered from one. -/
def physicalLines (text : List Char) : List (Nat × List Char) :=
  (((text.splitOn '\n').map Text.trim).zipIdx 1).filterMap fun (line, number) =>
    if line.isEmpty then none else some (number, line)

/-- The lines of a text, joined where they continue one another, with the number of the first. -/
def logicalLines (text : List Char) : List (Nat × List Char) :=
  match physicalLines text with
  | [] => []
  | first :: rest => joinLines first rest

/-! ### Rules -/

/-- The right-hand side that the tokens between two bars make up. -/
def parseAlternative : List Token → Except GrammarError Production
  | [.epsilon] => .ok .empty
  | [.terminal t] => .ok (.terminal t)
  | [.terminal t, .nonterminal n] => .ok (.step t n)
  | [] => .error .emptyAlternative
  | tokens =>
    if tokens.contains .arrow then .error .unexpectedArrow
    else .error (.malformedAlternative (String.join (tokens.map Token.display)))

/-- A rule, with the line that it starts on. -/
structure Rule where
  line : Nat
  head : Symbol
  alternatives : List Production
  deriving DecidableEq

/-- The nonterminal of a rule and its alternatives, from its tokens. -/
def parseTokens : List Token → Except GrammarError (Symbol × List Production)
  | .nonterminal head :: .arrow :: rest => do
    let alternatives ← (rest.splitOn .bar).mapM parseAlternative
    return (head, alternatives)
  | .nonterminal _ :: _ => .error .missingArrow
  | _ => .error .missingHead

/-- The rule of a line. -/
def parseRule : Nat × List Char → Except (Located GrammarError) Rule
  | (line, text) =>
    match Token.ofText text >>= parseTokens with
    | .ok (head, alternatives) => .ok ⟨line, head, alternatives⟩
    | .error cause => .error ⟨.onLine line, cause⟩

/-- The errors of a list of results. -/
def failures {ε α : Type} (results : List (Except ε α)) : List ε :=
  results.filterMap fun
    | .ok _ => none
    | .error e => some e

/-- The values of a list of results. -/
def successes {ε α : Type} (results : List (Except ε α)) : List α :=
  results.filterMap fun
    | .ok a => some a
    | .error _ => none

/-! ### Rules of the same nonterminal -/

/-- The alternatives of a nonterminal, with the line of its first rule. -/
structure Entry where
  head : Symbol
  line : Nat
  alternatives : List Production
  deriving DecidableEq

/-- The entry of a nonterminal among the rules: the alternatives of all its rules, each once. -/
def entryOf (rules : List Rule) (head : Symbol) : Entry :=
  let own := rules.filter fun rule => rule.head == head
  { head := head
    line := (own.head?.map Rule.line).getD 0
    alternatives := (own.flatMap Rule.alternatives).eraseDups }

/-- The entries of all nonterminals that have a rule, in order of appearance. -/
def entries (rules : List Rule) : List Entry :=
  (rules.map Rule.head).eraseDups.map (entryOf rules)

/-! ### The rules about the empty word -/

/-- Only the start symbol may derive the empty word. -/
def misplacedEpsilons (start : Symbol) (ruleset : List Entry) : List (Located GrammarError) :=
  (ruleset.filter fun e => e.head != start && e.alternatives.contains .empty).map fun e =>
    ⟨.onLine e.line, .epsilonOutsideStart e.head⟩

/-- The start symbol derives the empty word. -/
def startIsNullable (start : Symbol) (ruleset : List Entry) : Bool :=
  ruleset.any fun e => e.head == start && e.alternatives.contains .empty

/-- Nothing may lead to a start symbol that derives the empty word. -/
def startReentries (start : Symbol) (ruleset : List Entry) : List (Located GrammarError) :=
  if startIsNullable start ruleset then
    (ruleset.filter fun e => e.alternatives.any fun p => p.nonterminal? == some start).map fun e =>
      ⟨.onLine e.line, .reentersNullableStart e.head⟩
  else []

/-! ### Texts -/

/-- The grammar of rules that are well formed, or the rules about the empty word that they break. -/
def ofRules (text : String) (start : Symbol) (rules : List Rule) :
    Except (List (Located GrammarError)) Grammar :=
  let ruleset := entries rules
  match misplacedEpsilons start ruleset ++ startReentries start ruleset with
  | [] => .ok ⟨text, start, ruleset.map fun e => (e.head, e.alternatives)⟩
  | errors => .error errors

/-- The grammar of a text. -/
def parse (text : String) : Except (List (Located GrammarError)) Grammar :=
  let results := (logicalLines text.toList).map parseRule
  match failures results, successes results with
  | [], [] => .error [.wholeInput .emptyGrammar]
  | [], first :: rest => ofRules text first.head (first :: rest)
  | errors, _ => .error errors

/-- A text that is meant to be a grammar, with its grammar if it is one. -/
structure Draft where
  text : String
  grammar? : Option Grammar

namespace Draft

/-- The draft of a text. -/
def ofText (text : String) : Draft := ⟨text, (parse text).toOption⟩

/-- The draft of a grammar. -/
def ofGrammar (g : Grammar) : Draft := ⟨g.text, some g⟩

end Draft

end FiniteState.Grammar
