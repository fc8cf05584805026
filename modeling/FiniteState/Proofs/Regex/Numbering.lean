import Mathlib.Data.List.Nodup
import FiniteState.Regex.Basic

/-!
# Numbering the letters of an expression

An expression over symbols is an expression over positions under the map that
gives each position its symbol.  Its words are the images of the words over
positions, so words may be found where every letter is different.

## Main definitions

* `Regex.Expr.map` — the expression with its letters replaced.

## Main results

* `Regex.Expr.matches_map` — the words of a mapped expression are the images of
  words.
* `Regex.Expr.map_number` — the numbered expression is mapped to the expression.
* `Regex.Expr.letters_number` — its letters are the numbers below its size, in order.
-/

namespace FiniteState.Regex.Expr

variable {α β : Type} {e : Expr α} {f : α → β}

/-- The expression with its letters replaced. -/
def map (f : α → β) : Expr α → Expr β
  | .empty => .empty
  | .letter a => .letter (f a)
  | .star e => .star (e.map f)
  | .alternation e g => .alternation (e.map f) (g.map f)
  | .concatenation e g => .concatenation (e.map f) (g.map f)

/-- A word is mapped to a word. -/
theorem Matches.map {w : List α} (h : e.Matches w) : (e.map f).Matches (w.map f) := by
  induction h with
  | empty => exact .empty
  | letter a => exact .letter (f a)
  | starNil e => exact .starNil _
  | starAppend _ _ ihu ihv =>
    rw [List.map_append]
    exact .starAppend ihu ihv
  | left _ ih => exact .left ih
  | right _ ih => exact .right ih
  | append _ _ ihu ihv =>
    rw [List.map_append]
    exact .append ihu ihv

/-- **The words of a mapped expression are the images of words.** -/
theorem matches_map {w : List β} :
    (e.map f).Matches w ↔ ∃ v, e.Matches v ∧ v.map f = w := by
  constructor
  · intro h
    generalize hg : e.map f = g at h
    -- an expression whose image has some shape has that shape itself
    induction h generalizing e with
    | empty =>
      cases e <;> cases hg
      exact ⟨[], .empty, rfl⟩
    | letter b =>
      cases e <;> cases hg
      exact ⟨_, .letter _, rfl⟩
    | starNil g =>
      cases e <;> cases hg
      exact ⟨[], .starNil _, rfl⟩
    | starAppend _ _ ihu ihv =>
      cases e with
      | star e =>
        cases hg
        obtain ⟨u, hu, rfl⟩ := ihu rfl
        -- the other rounds belong to the repetition once more
        obtain ⟨v, hv, rfl⟩ := ihv (e := .star e) rfl
        exact ⟨u ++ v, .starAppend hu hv, List.map_append⟩
      | empty | letter | alternation | concatenation => cases hg
    | left _ ih =>
      cases e <;> cases hg
      obtain ⟨v, hv, rfl⟩ := ih rfl
      exact ⟨v, .left hv, rfl⟩
    | right _ ih =>
      cases e <;> cases hg
      obtain ⟨v, hv, rfl⟩ := ih rfl
      exact ⟨v, .right hv, rfl⟩
    | append _ _ ihu ihv =>
      cases e <;> cases hg
      obtain ⟨u, hu, rfl⟩ := ihu rfl
      obtain ⟨v, hv, rfl⟩ := ihv rfl
      exact ⟨u ++ v, .append hu hv, List.map_append⟩
  · rintro ⟨v, hv, rfl⟩
    exact hv.map

/-! ### Numbers -/

theorem letters_numberFrom (e : Expr α) (n : ℕ) :
    (e.numberFrom n).letters = List.range' n e.size := by
  induction e generalizing n with
  | empty | letter => rfl
  | star e ih => exact ih n
  | alternation e g ihe ihg =>
    rw [numberFrom, letters, ihe, ihg, size, List.range'_append_1]
  | concatenation e g ihe ihg =>
    rw [numberFrom, letters, ihe, ihg, size, List.range'_append_1]

/-- **The letters are the numbers below the size**, in order. -/
theorem letters_number (e : Expr α) : e.number.letters = List.range e.size := by
  rw [number, letters_numberFrom, List.range_eq_range']

/-- Replacing numbers by the letters that they stand for undoes the numbering. -/
theorem map_numberFrom {g : ℕ → β} (n : ℕ)
    (h : (List.range' n e.size).map g = e.letters.map f) : (e.numberFrom n).map g = e.map f := by
  induction e generalizing n with
  | empty => rfl
  | letter a => exact congrArg letter (List.singleton_inj.1 h)
  | star e ih => exact congrArg star (ih n h)
  | alternation e e' ihe ihe' =>
    rw [size, ← List.range'_append_1, List.map_append, letters, List.map_append] at h
    obtain ⟨hleft, hright⟩ := List.append_inj h (by simp)
    rw [numberFrom, map, ihe n hleft, ihe' _ hright, map]
  | concatenation e e' ihe ihe' =>
    rw [size, ← List.range'_append_1, List.map_append, letters, List.map_append] at h
    obtain ⟨hleft, hright⟩ := List.append_inj h (by simp)
    rw [numberFrom, map, ihe n hleft, ihe' _ hright, map]

/-- **The numbered expression is mapped to the expression** by looking the numbers
up among the letters. -/
theorem map_number (e : Expr α) : e.number.map (fun i => e.letters[i]?) = e.map some := by
  refine map_numberFrom 0 (List.ext_getElem (by simp) fun i hi hi' => ?_)
  rw [List.length_map] at hi'
  rw [List.getElem_map, List.getElem_map, List.getElem_range', Nat.zero_add, Nat.one_mul,
    List.getElem?_eq_getElem hi']

end FiniteState.Regex.Expr
