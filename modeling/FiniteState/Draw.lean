/-!
# Random draws

Random choices are made from a source of 64-bit words: the words of a list, and zeros without end
after them.  A choice below a bound multiplies a word by the bound and takes the part above the word
size.  Words whose product falls into the incomplete part of the range are drawn again, so that
every choice is as likely as any other.

## Main definitions

* `Draws` — a source of random words.
* `Draws.choose` — a number below a bound, from words of a given width.
* `Draws.scattered` — a source whose words look random.
-/

namespace FiniteState

/-- A source of random words: the words of the list, then zeros without end. -/
abbrev Draws := List UInt64

namespace Draws

/-- The largest low part of a product that makes a word acceptable: the bound is shifted to the top
of the width, and one is subtracted. -/
def zone (width bound : Nat) : Nat := bound <<< (width - 1 - bound.log2) - 1

/-- A number below a positive bound, and the source without the words that were drawn.  Of each word
the low `width` bits count.  Once the words are used up a zero is drawn, which is always acceptable
and gives zero. -/
def choose (width bound : Nat) : Draws → Nat × Draws
  | [] => (0, [])
  | word :: rest =>
    let product := word.toNat % (1 <<< width) * bound
    if product % (1 <<< width) ≤ zone width bound then (product >>> width, rest)
    else choose width bound rest

/-- A word whose digits depend on all digits of the given one. -/
def scatter (word : UInt64) : UInt64 :=
  let word := (word ^^^ (word >>> 30)) * 0xBF58476D1CE4E5B9
  let word := (word ^^^ (word >>> 27)) * 0x94D049BB133111EB
  word ^^^ (word >>> 31)

/-- A source whose words look random: `count` words that follow from a seed. -/
def scattered (count : Nat) (seed : UInt64) : Draws :=
  (List.range count).map fun i => scatter (seed + UInt64.ofNat i * 0x9E3779B97F4A7C15)

end Draws

end FiniteState
