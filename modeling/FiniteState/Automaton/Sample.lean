import FiniteState.Automaton.Error
import FiniteState.Automaton.Run
import FiniteState.Draw

/-!
# Random accepted words

A random walk through an automaton reads symbols that keep an accepting state in reach.  In a set of
states that accepts it stops with the probability of one choice among its moves and the end.  The
walk fails when it has read as many symbols as it may and is not in an accepting set of states.

## Main definitions

* `Automaton.moves` — the symbols that keep an accepting state in reach.
* `Automaton.walk` — a walk from a set of states.
* `Automaton.sample` — a walk from the initial state.
* `Automaton.samples` — several walks.
-/

namespace FiniteState.Automaton

/-- The symbols that keep a state of the given set in reach, with the states that they lead to. -/
def moves (fa : Automaton) (goal current : LabelSet) : List (Symbol × LabelSet) :=
  (fa.alphabet.filter fun s => !Symbol.isEpsilon s).filterMap fun s =>
    let next := fa.step current s
    if next.meets goal then some (s, next) else none

/-- Whether the walk stops, and the source that is left.  It stops where there is no move, and by
chance in an accepting set of states. -/
def stops (accepting : Bool) (moveCount : Nat) (draws : Draws) : Bool × Draws :=
  if moveCount = 0 then (true, draws)
  else if accepting then
    let (choice, draws) := draws.choose 64 (moveCount + 1)
    (choice == 0, draws)
  else (false, draws)

/-- A walk of at most the given number of symbols: the word that was read, if it is accepted, and
the source that is left. -/
def walk (fa : Automaton) (goal : LabelSet) :
    Nat → LabelSet → Draws → Option (List Symbol) × Draws
  | 0, current, draws => (if fa.meetsFinal current then some [] else none, draws)
  | length + 1, current, draws =>
    let moves := fa.moves goal current
    let accepting := fa.meetsFinal current
    match stops accepting moves.length draws with
    | (true, draws) => (if accepting then some [] else none, draws)
    | (false, draws) =>
      let (choice, draws) := draws.choose 32 moves.length
      match moves[choice]? with
      | none => (none, draws)
      | some (s, next) =>
        let (word, draws) := fa.walk goal length next draws
        (word.map (s :: ·), draws)

/-- What a walk needs: an initial state, and a word that is accepted. -/
def checkSampling (fa : Automaton) : Except AutomatonError Unit :=
  if fa.initial.isNone then .error (.missingInitialState .sampling)
  else if fa.isEmpty then .error .emptyLanguage
  else .ok ()

/-- A random word of at most `maxLength` symbols, if the walk finds one, and the source that is
left. -/
def sample (fa : Automaton) (maxLength : Nat) (draws : Draws) :
    Except AutomatonError (Option (List Symbol) × Draws) := do
  fa.checkSampling
  return fa.walk fa.coreachable maxLength fa.start draws

/-- The number of walks for each word that is requested. -/
def attemptsPerWord : Nat := 16

/-- The words found by at most `attempts` walks, until there are `count` of them.  Each walk has a
source of its own. -/
def collect (attempt : Nat → Option (List Symbol)) : Nat → Nat → List (List Symbol)
  | 0, _ => []
  | _, 0 => []
  | attempts + 1, count + 1 =>
    match attempt attempts with
    | some word => word :: collect attempt attempts count
    | none => collect attempt attempts (count + 1)

/-- Up to `count` random words of at most `maxLength` symbols.  The source of each walk is given by
the number of walks that may still follow it. -/
def samples (fa : Automaton) (count maxLength : Nat) (source : Nat → Draws) :
    Except AutomatonError (List (List Symbol)) :=
  if count > maxSamples then .error (.tooManySamples count)
  else if count = 0 then .ok []
  else do
    fa.checkSampling
    let goal := fa.coreachable
    let start := fa.start
    return collect (fun i => (fa.walk goal maxLength start (source i)).1)
      (count * attemptsPerWord) count

end FiniteState.Automaton
