import FiniteState.Label.Basic

/-!
# Labels told apart by primes

The states of a constructed machine get descriptive labels, such as the concatenated members of a
set.  Two states may have the same description; the later one is then followed by as many primes as
it takes to tell it from the earlier ones.

## Main definitions

* `Label.primed` — a label with the fewest primes that make it differ from the labels taken.
* `Label.distinct` — the keys of a list paired with labels that are all different.
-/

namespace FiniteState.Label

/-- The label with the fewest primes, at most `fuel`, that make it differ from the labels taken. -/
def addPrimes (taken : List Label) : Nat → Label → Label
  | 0, l => l
  | fuel + 1, l => if taken.contains l then addPrimes taken fuel (l ++ "'") else l

/-- The label with the fewest primes that make it differ from the labels taken.  As many primes as
there are labels taken are always enough. -/
def primed (taken : List Label) (l : Label) : Label := addPrimes taken taken.length l

variable {κ : Type}

/-- Pairs keys with different labels, after the labels already taken. -/
def distinctFrom (describe : κ → Label) : List Label → List κ → List (κ × Label)
  | _, [] => []
  | taken, k :: keys =>
    let l := primed taken (describe k)
    (k, l) :: distinctFrom describe (l :: taken) keys

/-- Pairs the keys with different labels, each the description of its key with some primes. -/
def distinct (describe : κ → Label) (keys : List κ) : List (κ × Label) :=
  distinctFrom describe [] keys

end FiniteState.Label
