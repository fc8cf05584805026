import FiniteState.Diagnostic
import FiniteState.Text.Blank
import FiniteState.Regex.Basic

/-!
# Reading regular expressions

A text holds terminals, parentheses, `*` for repetition and `|` for alternatives; blank characters
mean nothing.  Repetition binds tighter than putting one after the other, which binds tighter than
alternatives, and both of these group to the left.  A missing side of `|`, a pair of parentheses
with nothing between them and a text without characters stand for the empty word.

The text is read once, from left to right.  What has been read inside the innermost open
parenthesis is a *frame*; the frames outside of it wait on a stack, each with the column of the
parenthesis that put it there.

## Main definitions

* `Regex.ParseError` — what can be wrong with a text.
* `Regex.Frame` — what has been read inside a parenthesis.
* `Regex.readChar` — the effect of one character.
* `Regex.parse` — the expression of a text.
-/

namespace FiniteState.Regex

/-- The ways in which a text is no regular expression. -/
inductive ParseError
  /-- Neither a terminal nor an operator nor blank. -/
  | unsupportedCharacter (c : Char)
  /-- A parenthesis is opened and never closed. -/
  | unbalancedParenthesis
  /-- A parenthesis is closed and was never opened. -/
  | unexpectedParenthesis
  /-- There is nothing to repeat. -/
  | danglingStar
  deriving DecidableEq, Repr

/-- The wording of a cause. -/
def ParseError.wording : ParseError → String
  | .unsupportedCharacter c => "Unsupported character `" ++ String.ofList [c] ++ "`"
  | .unbalancedParenthesis => "This `(` is never closed"
  | .unexpectedParenthesis => "This `)` has no matching `(`"
  | .danglingStar => "`*` must follow a symbol or a group"

instance : Diagnostic ParseError := ⟨fun _ => .syntactic, ParseError.wording⟩

/-! ### Frames -/

/-- What has been read inside a parenthesis. -/
structure Frame where
  /-- The alternatives that are finished. -/
  branches : Option (Expr Symbol)
  /-- The pieces of the current alternative that are finished. -/
  pieces : Option (Expr Symbol)
  /-- The last piece, when a star may still follow it. -/
  last : Option (Expr Symbol)
  deriving DecidableEq

namespace Frame

/-- Nothing has been read. -/
def blank : Frame := ⟨none, none, none⟩

/-- One piece after the pieces before it. -/
def append (before : Option (Expr Symbol)) (piece : Expr Symbol) : Expr Symbol :=
  match before with
  | none => piece
  | some e => .concatenation e piece

/-- All pieces of the current alternative, if there are any. -/
def allPieces (f : Frame) : Option (Expr Symbol) :=
  match f.last with
  | none => f.pieces
  | some piece => some (append f.pieces piece)

/-- The frame after one more piece, which a star may follow. -/
def push (f : Frame) (piece : Expr Symbol) : Frame := ⟨f.branches, f.allPieces, some piece⟩

/-- The frame after a star, if there is something to repeat. -/
def star? (f : Frame) : Option Frame :=
  f.last.map fun piece => ⟨f.branches, some (append f.pieces (.star piece)), none⟩

/-- The expression that has been read; an alternative without pieces is the empty word. -/
def close (f : Frame) : Expr Symbol :=
  let branch := f.allPieces.getD .empty
  match f.branches with
  | none => branch
  | some e => .alternation e branch

/-- The frame after a bar. -/
def bar (f : Frame) : Frame := ⟨some f.close, none, none⟩

end Frame

/-! ### Reading a text -/

/-- The innermost frame, and the frames outside of it with the columns of the parentheses between
them. -/
structure ParseState where
  inner : Frame
  outer : List (Nat × Frame)

/-- A cause at a column. -/
def errorAt (column : Nat) (cause : ParseError) : Located ParseError := ⟨.atColumn column, cause⟩

/-- The effect of one character that is not blank. -/
def readChar (state : ParseState) : Nat × Char → Except (Located ParseError) ParseState
  | (_, '|') => .ok { state with inner := state.inner.bar }
  | (column, '*') =>
    match state.inner.star? with
    | some inner => .ok { state with inner := inner }
    | none => .error (errorAt column .danglingStar)
  | (column, '(') => .ok ⟨.blank, (column, state.inner) :: state.outer⟩
  | (column, ')') =>
    match state.outer with
    | (_, frame) :: outer => .ok ⟨frame.push state.inner.close, outer⟩
    | [] => .error (errorAt column .unexpectedParenthesis)
  | (column, c) =>
    if Symbol.isTerminal c then .ok { state with inner := state.inner.push (.letter c) }
    else .error (errorAt column (.unsupportedCharacter c))

/-- The expression at the end of the text, if every parenthesis is closed. -/
def finish (state : ParseState) : Except (Located ParseError) (Expr Symbol) :=
  match state.outer with
  | [] => .ok state.inner.close
  | (column, _) :: _ => .error (errorAt column .unbalancedParenthesis)

/-- A character that may occur in a text. -/
def isSupported (c : Char) : Bool :=
  Symbol.isTerminal c || c == '(' || c == ')' || c == '*' || c == '|' || Text.isBlank c

/-- The characters of a text with their columns. -/
def columns (text : List Char) : List (Nat × Char) := (text.zipIdx 1).map fun (c, i) => (i, c)

/-- The expression of a text.  A character that may not occur is reported before anything else that
is wrong. -/
def parse (text : List Char) : Except (Located ParseError) (Expr Symbol) :=
  match (columns text).find? fun (_, c) => !isSupported c with
  | some (column, c) => .error (errorAt column (.unsupportedCharacter c))
  | none => do
    let state ← ((columns text).filter fun (_, c) => !Text.isBlank c).foldlM readChar ⟨.blank, []⟩
    finish state

end FiniteState.Regex
