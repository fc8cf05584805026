import FiniteState.Regex.Compile
import FiniteState.Grammar.Conversion
import FiniteState.Proofs.Automaton.Minimal
import FiniteState.Automaton.Product
import FiniteState.Automaton.Subset
import FiniteState.Proofs.Split.Loop
import FiniteState.Proofs.Split.Machine
import FiniteState.Proofs.Split.Trim

/-!
# Constructions in two collections

The constructions do not make a table in one go.  They write their result edit by edit, delete
states of it again, and rename the rest.  What they write is read off the operands: sets of states
and of positions are found by a loop that writes while it goes on, pairs and classes of states are
listed first, and a union or a grammar is copied.

## Main definitions

* `SplitAutomaton.determinize`, `SplitAutomaton.minimize`, `SplitAutomaton.union`,
  `SplitAutomaton.intersection` — the constructions on automata.
* `SplitAutomaton.ofPositions`, `SplitAutomaton.ofGrammar`, `SplitAutomaton.ofDraft` — those on
  regular expressions and grammars.

## Main results

* `InStep.union`, `inStep_determinize`, `inStep_minimize` and the others of this form — **every
  construction leaves rows and states in step**.
-/

namespace FiniteState

namespace SplitAutomaton

/-! ### Loops -/

/-- A deterministic automaton that accepts the same words.  Its states are written while the sets
of states are discovered; then the useless ones are deleted and the others renamed.  Without an
initial state only the symbols are written. -/
def determinize (a : SplitAutomaton) : SplitAutomaton :=
  let m := a.table.powerset
  let script := Writing.written LabelSet.toList
    (fun taken S => Label.primed taken S.describe) m (1 <<< a.states.length)
  let built := (empty.withDeterminized true).performAll script
  if m.initial.isNone then built else built.removeUseless.rename.withDeterminized true

/-- The deterministic automaton over sets of positions.  Its states are written while the sets are
discovered, and then renamed. -/
def ofPositions (t : Regex.PositionTable) : SplitAutomaton :=
  let script := Writing.written NatSet.toList
    (fun _ S => Regex.PositionTable.describe S) t.machine (1 <<< t.size)
  (empty.performAll script).rename.withDeterminized true

/-! ### Classes and pairs -/

/-- The label of the sink that makes all transitions defined, if some are not. -/
def sinkLabel? (a : SplitAutomaton) : Option Label :=
  if a.table.hasUndefined then some (LabelPool.excluding a.states).take.1 else none

/-- The machine over the least numbers of the classes of states that no word tells apart.  The
number of the sink is one of them if there is a sink. -/
def classes (fa : Automaton) (sunk : Bool) : Machine (Fin (fa.states.length + 1)) where
  alphabet := fa.alphabet
  states := (List.finRange _).filter fun u => (u != fa.sink || sunk) && fa.least u == u
  step u s := some (fa.least (fa.numberedStep u s))
  initial := fa.initial.map fun q => fa.least (fa.number q)
  accepting := fa.numberedAccepting

/-- A class is named by its least state, and that of the sink by the label of the sink. -/
def classLabel (fa : Automaton) (sink? : Option Label) (u : Fin (fa.states.length + 1)) : Label :=
  (fa.numberedState? u).getD (sink?.getD "")

/-- The automaton over the classes of states that no word tells apart.  All classes are written,
and that of the sink is deleted afterwards. -/
def merged (a : SplitAutomaton) : SplitAutomaton :=
  let fa := a.table
  let m := classes fa a.sinkLabel?.isSome
  let labels := m.states.map fun u => (u, classLabel fa a.sinkLabel? u)
  let label (u : Fin (fa.states.length + 1)) : Label := (labels.lookup u).getD ""
  let built := empty.performAll (m.script label)
  if a.sinkLabel?.isSome then built.deleteState (label (fa.least fa.sink)) else built

/-- The smallest deterministic automaton that accepts the same words. -/
def minimize (a : SplitAutomaton) : Except AutomatonError SplitAutomaton :=
  if a.determinized then
    let core := a.removeUnreachable.removeUseless
    if core.initial.isNone then .ok (empty.withDeterminized true)
    else .ok (core.merged.rename.withDeterminized true)
  else .error (.notDeterministic .minimization)

/-- An automaton for the words of both automata.  All pairs of states are written, and those that
are not reached are deleted afterwards. -/
def intersection (a : SplitAutomaton) (fb : Automaton) : Except AutomatonError SplitAutomaton :=
  if a.determinized && fb.determinized then
    let m := a.table.allPairs fb
    let built := empty.performAll (m.script (m.label fun (p, q) => p ++ q))
    .ok (built.removeUnreachable.rename.withDeterminized true)
  else .error (.notDeterministic .intersection)

/-! ### Copies -/

/-- The edits that copy an automaton without its marks. -/
def copyScript (fb : Automaton) : List Edit :=
  fb.alphabet.map .symbol ++ fb.states.map .state ++
    fb.cells.flatMap fun (q, s, c) => c.targets.toList.map fun r => .transition q s r

/-- The edits that put an automaton with the given initial and accepting states, and a copy of
another one, between a new initial and a new accepting state. -/
def joinScript (initial : Option Label) (finals : List Label) (fb : Automaton)
    (start accept : Label) : List Edit :=
  copyScript fb ++ [.state start, .symbol Symbol.epsilon] ++
    (initial.toList ++ fb.initial.toList).map (fun p => .transition start Symbol.epsilon p) ++
    [.initial (some start), .state accept] ++
    (finals ++ fb.finals).flatMap (fun q =>
      [.transition q Symbol.epsilon accept, .unmark q]) ++
    [.final accept]

/-- An automaton for the words of either automaton: the left one is renamed, and the right one is
copied next to it. -/
def union (a : SplitAutomaton) (fb : Automaton) : Except AutomatonError SplitAutomaton :=
  if a.determinized && fb.determinized then
    let (left, pool) := a.renameWith (.excluding fb.states)
    let (start, pool) := pool.take
    let (accept, _) := pool.take
    .ok ((left.performAll (joinScript left.initial left.finals fb start accept)).withDeterminized
      false)
  else .error (.notDeterministic .union)

/-- The edit for an alternative of a nonterminal; the empty word has none. -/
def alternativeEdit? (head : Symbol) : Production → Option Edit
  | .empty => none
  | .terminal t => some (.transition (Label.ofChar head) t Label.sentinel)
  | .step t n => some (.transition (Label.ofChar head) t (Label.ofChar n))

/-- The edits that write a grammar. -/
def grammarScript (g : Grammar) : List Edit :=
  g.terminals.map .symbol ++ g.nonterminals.map (fun n => .state (Label.ofChar n)) ++
    [.final Label.sentinel] ++
    g.productions.flatMap (fun e => e.2.filterMap (alternativeEdit? e.1)) ++
    [.initial (some (Label.ofChar g.start))] ++
    if g.derivesEmpty then [.final (Label.ofChar g.start)] else []

/-- The automaton of a grammar. -/
def ofGrammar (g : Grammar) : SplitAutomaton := empty.performAll (grammarScript g)

/-- The automaton of a draft, which is empty if the text is no grammar. -/
def ofDraft (draft : Grammar.Draft) : SplitAutomaton :=
  match draft.grammar? with
  | some g => ofGrammar g
  | none => empty

/-! ### Both collections -/

variable {a b : SplitAutomaton} {fb : Automaton}

/-- What is written from nothing is in step. -/
theorem inStep_performAll_empty (script : List Edit) : (empty.performAll script).InStep :=
  inStep_empty.performAll script

theorem inStep_determinize (a : SplitAutomaton) : a.determinize.InStep := by
  have hbuilt := (inStep_empty.withDeterminized true).performAll
    (Writing.written LabelSet.toList (fun taken S => Label.primed taken S.describe)
      a.table.powerset (1 <<< a.states.length))
  unfold determinize
  dsimp only
  split
  · exact hbuilt
  · exact hbuilt.removeUseless.rename.withDeterminized true

theorem inStep_ofPositions (t : Regex.PositionTable) : (ofPositions t).InStep :=
  (inStep_performAll_empty _).rename.withDeterminized true

theorem inStep_merged (a : SplitAutomaton) : a.merged.InStep := by
  unfold merged
  dsimp only
  split
  · exact (inStep_performAll_empty _).deleteState _
  · exact inStep_performAll_empty _

theorem inStep_minimize (hok : a.minimize = .ok b) : b.InStep := by
  unfold minimize at hok
  dsimp only at hok
  split at hok
  · split at hok
    · obtain rfl := Except.ok.inj hok
      exact inStep_empty.withDeterminized true
    · obtain rfl := Except.ok.inj hok
      exact (inStep_merged _).rename.withDeterminized true
  · cases hok

theorem inStep_intersection (hok : a.intersection fb = .ok b) : b.InStep := by
  unfold intersection at hok
  split at hok
  · obtain rfl := Except.ok.inj hok
    exact (inStep_performAll_empty _).removeUnreachable.rename.withDeterminized true
  · cases hok

theorem InStep.union (h : a.InStep) (hok : a.union fb = .ok b) : b.InStep := by
  unfold SplitAutomaton.union at hok
  split at hok
  · obtain rfl := Except.ok.inj hok
    exact ((h.renameWith _).performAll _).withDeterminized false
  · cases hok

theorem inStep_ofGrammar (g : Grammar) : (ofGrammar g).InStep := inStep_performAll_empty _

theorem inStep_ofDraft (draft : Grammar.Draft) : (ofDraft draft).InStep := by
  unfold ofDraft
  split
  · exact inStep_ofGrammar _
  · exact inStep_empty

end SplitAutomaton

end FiniteState
