/-!
# Blank characters

A character is *blank* when Unicode gives it the property `White_Space`.  Blank characters separate
nothing and mean nothing in regular expressions, grammars and cell texts, so they are skipped there,
and lines are trimmed of them.

## Main definitions

* `isBlank` — the property.
* `trimEnd`, `trim` — a text without the blanks at its end, or at both ends.
-/

namespace FiniteState.Text

/-- The first and last code point of each range of characters with the property `White_Space`. -/
def blankRanges : List (Nat × Nat) :=
  [(0x09, 0x0D), (0x20, 0x20), (0x85, 0x85), (0xA0, 0xA0), (0x1680, 0x1680), (0x2000, 0x200A),
   (0x2028, 0x2029), (0x202F, 0x202F), (0x205F, 0x205F), (0x3000, 0x3000)]

/-- The character lies in one of the ranges of blank characters. -/
def isBlank (c : Char) : Bool :=
  blankRanges.any fun (low, high) => low ≤ c.toNat && c.toNat ≤ high

/-- The text without the blanks at its end. -/
def trimEnd (text : List Char) : List Char :=
  (text.reverse.dropWhile isBlank).reverse

/-- The text without the blanks at either end. -/
def trim (text : List Char) : List Char :=
  trimEnd (text.dropWhile isBlank)

end FiniteState.Text
