import FiniteState.NatSet
import FiniteState.Regex.Basic

/-!
# Positions in an expression

The letters of an expression are numbered from left to right, and an end marker is put after them.
The numbers are the *positions*.  Three facts about an expression over positions say which positions
can begin and end its words and whether it has the empty word; from them it follows which positions
can follow one another.

## Main definitions

* `Regex.Facts`, `Regex.Expr.facts` — whether the empty word is in the language of an expression
  over positions, and the positions that begin and end its words.
* `Regex.Expr.links` — pairs of sets such that each position of the second can follow each position
  of the first; `Regex.Expr.survey` finds them and the facts in one pass.
* `Regex.PositionTable` — the numbered expression with its end marker, the symbol of each position,
  and the positions that can follow it.
-/

namespace FiniteState.Regex

/-- What is known of an expression over positions. -/
structure Facts where
  /-- The empty word is in the language. -/
  nullable : Bool
  /-- The positions that begin a word. -/
  first : NatSet
  /-- The positions that end a word. -/
  last : NatSet
  deriving DecidableEq

namespace Facts

/-- The facts of the empty word. -/
def empty : Facts := ⟨true, ∅, ∅⟩

/-- The facts of a position. -/
def letter (p : Nat) : Facts := ⟨false, .singleton p, .singleton p⟩

/-- The facts of a repetition. -/
def star (e : Facts) : Facts := ⟨true, e.first, e.last⟩

/-- The facts of an alternative. -/
def alternation (e f : Facts) : Facts :=
  ⟨e.nullable || f.nullable, e.first.union f.first, e.last.union f.last⟩

/-- The facts of one expression after another. -/
def concatenation (e f : Facts) : Facts :=
  ⟨e.nullable && f.nullable,
    if e.nullable then e.first.union f.first else e.first,
    if f.nullable then f.last.union e.last else f.last⟩

end Facts

namespace Expr

/-- The facts of an expression over positions. -/
def facts : Expr Nat → Facts
  | .empty => .empty
  | .letter p => .letter p
  | .star e => e.facts.star
  | .alternation e f => e.facts.alternation f.facts
  | .concatenation e f => e.facts.concatenation f.facts

/-- The facts of an expression together with pairs of sets such that each position of the second can
follow each position of the first: where one expression comes after another, and where a repetition
begins again. -/
def survey : Expr Nat → Facts × List (NatSet × NatSet)
  | .empty => (.empty, [])
  | .letter p => (.letter p, [])
  | .star e =>
    let (facts, links) := e.survey
    (facts.star, (facts.last, facts.first) :: links)
  | .alternation e f =>
    let (facts, links) := e.survey
    let (facts', links') := f.survey
    (facts.alternation facts', links ++ links')
  | .concatenation e f =>
    let (facts, links) := e.survey
    let (facts', links') := f.survey
    (facts.concatenation facts', (facts.last, facts'.first) :: (links ++ links'))

/-- Pairs of sets such that each position of the second can follow each position of the first. -/
def links (e : Expr Nat) : List (NatSet × NatSet) := e.survey.2

@[simp] theorem survey_fst (e : Expr Nat) : e.survey.1 = e.facts := by
  induction e with
  | empty | letter => rfl
  | star e ih => simp [survey, facts, ih]
  | alternation e f ihe ihf => simp [survey, facts, ihe, ihf]
  | concatenation e f ihe ihf => simp [survey, facts, ihe, ihf]

theorem links_star (e : Expr Nat) :
    (Expr.star e).links = (e.facts.last, e.facts.first) :: e.links := by
  simp [links, survey]

theorem links_alternation (e f : Expr Nat) :
    (Expr.alternation e f).links = e.links ++ f.links := rfl

theorem links_concatenation (e f : Expr Nat) :
    (Expr.concatenation e f).links =
      (e.facts.last, f.facts.first) :: (e.links ++ f.links) := by
  simp [links, survey]

/-- The expression over positions with an end marker, whose position is the number of letters. -/
def withEnd {α : Type} (e : Expr α) : Expr Nat := .concatenation e.number (.letter e.size)

end Expr

/-- The positions that can follow a position, by the links of an expression. -/
def followOf (links : List (NatSet × NatSet)) (p : Nat) : NatSet :=
  links.foldl (fun acc (ends, begins) => if ends.contains p then acc.union begins else acc) ∅

/-- An expression with numbered positions. -/
structure PositionTable where
  /-- The expression over positions, with its end marker. -/
  root : Expr Nat
  /-- The symbol of each position before the end marker. -/
  symbols : Array Symbol
  /-- The positions that can follow each position, the end marker included. -/
  follow : Array NatSet

namespace PositionTable

/-- The position table of an expression. -/
def ofExpr (e : Expr Symbol) : PositionTable :=
  let links := e.withEnd.links
  { root := e.withEnd
    symbols := e.letters.toArray
    follow := ((List.range (e.size + 1)).map (followOf links)).toArray }

/-- The position of the end marker, which is the last one. -/
def endMarker (t : PositionTable) : Nat := t.symbols.size

/-- The number of positions, the end marker included. -/
def size (t : PositionTable) : Nat := t.symbols.size + 1

/-- The symbol of a position; the end marker has none. -/
def symbol? (t : PositionTable) (p : Nat) : Option Symbol := t.symbols[p]?

/-- The positions that can follow a position. -/
def follow? (t : PositionTable) (p : Nat) : Option NatSet := t.follow[p]?

/-- The symbols in the order of their first appearance. -/
def alphabet (t : PositionTable) : List Symbol := t.symbols.toList.eraseDups

end PositionTable

end FiniteState.Regex
