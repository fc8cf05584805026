import FiniteState.Grammar.Parser
import FiniteState.Automaton.Minimal

/-!
# Grammars and automata

A grammar becomes an automaton whose states are its nonterminals and a sentinel that accepts: a rule
with a terminal alone leads to the sentinel.  A deterministic automaton becomes a grammar: a
transition to an accepting state is a rule with a terminal alone, and a transition to a state that
can be left again is a rule with a terminal and a nonterminal.

## Main definitions

* `Automaton.ofGrammar` — the automaton of a grammar; `Automaton.ofDraft` — that of a draft.
* `Grammar.ofAutomaton` — a grammar of the words of an automaton.
-/

namespace FiniteState

/-! ### From grammars to automata -/

namespace Grammar

/-- The states that a terminal leads to from a nonterminal. -/
def targets (g : Grammar) (head t : Symbol) : LabelSet :=
  .ofList <| (g.alternatives head).filterMap fun
    | .empty => none
    | .terminal u => if u = t then some Label.sentinel else none
    | .step u n => if u = t then some (Label.ofChar n) else none

end Grammar

namespace Automaton

/-- The automaton of a grammar.  The marker has a column when it occurs in the grammar; the column
stays empty, as the empty word only makes the start symbol accept. -/
def ofGrammar (g : Grammar) : Automaton where
  alphabet := g.terminals
  rows :=
    (g.nonterminals.map fun n =>
      (Label.ofChar n, g.terminals.map fun t => (t, .ofTargets (g.targets n t)))) ++
    tabulate g.terminals [Label.sentinel] fun _ _ => .empty
  initial := some (Label.ofChar g.start)
  finals := Label.sentinel :: if g.derivesEmpty then [Label.ofChar g.start] else []
  determinized := false

/-- The automaton of a draft, which is empty if the text is no grammar. -/
def ofDraft (draft : Grammar.Draft) : Automaton :=
  match draft.grammar? with
  | some g => ofGrammar g
  | none => empty

end Automaton

/-! ### From automata to grammars -/

namespace Grammar

/-- The most nonterminals that a grammar can have. -/
def maxNonterminals : Nat := 26

/-- The nonterminal of a state that is named by a letter. -/
def headOf (q : Label) : Symbol := (q.toList.head?).getD 'A'

/-- The label is that of a state and is not empty, so that it begins with a nonterminal. -/
def hasHead (fa : Automaton) (q : Label) : Bool := fa.hasState q && q.toList.head?.isSome

/-- The alternatives for the transitions of a state on a symbol. -/
def alternativesOn (fa : Automaton) (q : Label) (s : Symbol) : List Production :=
  (fa.targets q s).toList.flatMap fun target =>
    (if fa.isFinal target then [.terminal s] else []) ++
      (if fa.hasOutgoing target then [.step s (headOf target)] else [])

/-- The alternatives for all transitions of a state. -/
def alternativesOf (fa : Automaton) (q : Label) : List Production :=
  (fa.alphabet.flatMap (alternativesOn fa q)).eraseDups

/-- The rules for the states that have alternatives, those of the initial state first. -/
def productionsOf (fa : Automaton) (initial : Label) : List (Symbol × List Production) :=
  (initial :: fa.states.filter (· != initial)).filterMap fun q =>
    match alternativesOf fa q with
    | [] => none
    | alternatives => some (headOf q, alternatives)

/-- Some rule leads to the nonterminal. -/
def isReentered (productions : List (Symbol × List Production)) (n : Symbol) : Bool :=
  productions.any fun (_, alternatives) => alternatives.any fun p => p.nonterminal? == some n

/-- The grammar with the given rules, whose text is its own display. -/
def ofProductions (start : Symbol) (productions : List (Symbol × List Production)) : Grammar :=
  { (⟨"", start, productions⟩ : Grammar) with
    text := (⟨"", start, productions⟩ : Grammar).display }

/-- The grammar of a trimmed automaton whose states are named by letters.  If the initial state
accepts, the start symbol also derives the empty word; and if some rule leads back to the initial
state, a fresh start symbol takes over that part. -/
def ofTrimmed (fa : Automaton) (initial : Label) : Except AutomatonError Grammar :=
  let productions := productionsOf fa initial
  let head := headOf initial
  let own := (productions.lookup head).getD []
  if !fa.isFinal initial then .ok (ofProductions head productions)
  else if isReentered productions head then
    if fa.states.length ≥ maxNonterminals then .error (.tooManyStates (fa.states.length + 1))
    else
      let fresh := headOf (LabelPool.excluding fa.states).take.1
      .ok (ofProductions fresh ((fresh, own ++ [.empty]) :: productions))
  else
    let others := productions.filter fun (n, _) => n != head
    .ok (ofProductions head ((head, own ++ [.empty]) :: others))

/-- A grammar of the words of a deterministic automaton. -/
def ofAutomaton (fa : Automaton) : Except AutomatonError Grammar :=
  if !fa.isDeterministic then .error (.notDeterministic .grammarConversion)
  else if fa.initial.isNone then .error (.missingInitialState .grammarConversion)
  else
    let core := fa.live
    if core.states.length > maxNonterminals then .error (.tooManyStates core.states.length)
    else
      let named := core.rename
      match named.initial with
      | none => .error .emptyLanguage
      | some initial =>
        if hasHead named initial then ofTrimmed named initial else .error (.unknownState initial)

end Grammar

end FiniteState
