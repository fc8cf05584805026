/-!
# State labels

States are named by short texts.  An editor accepts the labels that start with an uppercase letter
or the accepting sentinel `$` and go on with uppercase letters, digits and sentinels.  Fresh labels
are drawn from one fixed sequence: the single letters `A` … `Z`, then `A1` … `Z1`, `A2` … `Z2`, and
so on.

## Main definitions

* `Label` — the name of a state.
* `Label.sentinel` — the label of the accepting state of an encoded grammar.
* `Label.isValid` — the labels an editor accepts.
* `Label.isLetter` — the labels that consist of one uppercase letter.
* `Label.nth` — the sequence of fresh labels.
-/

namespace FiniteState

/-- The name of a state. -/
abbrev Label := String

namespace Label

/-- The accepting state of an encoded grammar. -/
def sentinel : Label := "$"

/-- A character of a label: an uppercase letter, a digit or the sentinel. -/
def isLabelChar (c : Char) : Bool := c.isUpper || c.isDigit || c == '$'

/-- A label starts with an uppercase letter or the sentinel and holds label characters only. -/
def isValidText : List Char → Bool
  | [] => false
  | c :: rest => (c.isUpper || c == '$') && rest.all isLabelChar

/-- The labels that an editor accepts. -/
def isValid (l : Label) : Bool := isValidText l.toList

/-- The label is a single uppercase letter. -/
def isLetter (l : Label) : Bool :=
  match l.toList with
  | [c] => c.isUpper
  | _ => false

/-- The label of one character. -/
def ofChar (c : Char) : Label := String.ofList [c]

/-- The letter at a place of the alphabet, counted from zero and beginning again after `Z`. -/
def letter (i : Nat) : Char := Char.ofNat ('A'.toNat + i % 26)

/-- The label at a place of the sequence of fresh labels: 26 letters without number, 26 with the
number one, and so on. -/
def nth (i : Nat) : Label :=
  if i < 26 then ofChar (letter i) else ofChar (letter i) ++ toString (i / 26)

end Label

end FiniteState
