import FiniteState.Symbol
import FiniteState.Text.Blank

/-!
# Symbols are not blank

The characters that mean something in regular expressions and grammars are printing
characters of ASCII, and none of these is blank.  A text that neither begins nor ends
with a blank is left as it is when it is trimmed.

## Main results

* `Text.isBlank_eq_false` — the printing characters of ASCII are not blank.
* `Symbol.isNonterminal_iff`, `Symbol.isTerminal_iff` — the symbols by their numbers.
* `Symbol.isBlank_of_isTerminal`, `Symbol.isBlank_of_isNonterminal` — **neither terminals
  nor nonterminals are blank**.
* `Text.trim_eq_self` — trimming a text without blanks at its ends.
* `Text.exists_trim_append`, `Text.isBlank_of_mem_head?_trim`,
  `Text.isBlank_of_mem_getLast?_trim` — **trimming takes blanks off both ends, and all of them**.
-/

namespace FiniteState

variable {c : Char} {text : List Char}

namespace Text

/-- The characters between the blank and the first blank beyond ASCII are not blank. -/
theorem isBlank_eq_false (hlow : 0x20 < c.toNat) (hhigh : c.toNat < 0x85) :
    isBlank c = false := by
  simp [isBlank, blankRanges]
  omega

/-- A text without a blank at either end is trimmed already. -/
theorem trim_eq_self (hhead : ∀ c ∈ text.head?, isBlank c = false)
    (hlast : ∀ c ∈ text.getLast?, isBlank c = false) : trim text = text := by
  have hdrop : ∀ {l : List Char}, (∀ c ∈ l.head?, isBlank c = false) → l.dropWhile isBlank = l := by
    intro l hl
    cases l with
    | nil => rfl
    | cons c l => rw [List.dropWhile_cons_of_neg (by simp [hl c rfl])]
  rw [trim, hdrop hhead, trimEnd, hdrop, List.reverse_reverse]
  simpa using hlast

theorem exists_trimEnd_append (text : List Char) :
    ∃ back, text = trimEnd text ++ back ∧ ∀ c ∈ back, isBlank c = true := by
  refine ⟨(text.reverse.takeWhile isBlank).reverse, ?_, fun c hc => ?_⟩
  · rw [trimEnd, ← List.reverse_append, List.takeWhile_append_dropWhile, List.reverse_reverse]
  · exact List.all_eq_true.1 List.all_takeWhile c (List.mem_reverse.1 hc)

/-- **Trimming takes blanks off both ends.** -/
theorem exists_trim_append (text : List Char) : ∃ front back, text = front ++ (trim text ++ back) ∧
    (∀ c ∈ front, isBlank c = true) ∧ ∀ c ∈ back, isBlank c = true := by
  obtain ⟨back, hback, hblank⟩ := exists_trimEnd_append (text.dropWhile isBlank)
  refine ⟨text.takeWhile isBlank, back, ?_, List.all_eq_true.1 List.all_takeWhile, hblank⟩
  rw [trim, ← hback, List.takeWhile_append_dropWhile]

theorem isBlank_of_mem_head?_dropWhile (hc : c ∈ (text.dropWhile isBlank).head?) :
    isBlank c = false := by
  have hfirst := List.head?_dropWhile_not isBlank text
  rwa [Option.mem_def.1 hc] at hfirst

/-- No blank is left at the front. -/
theorem isBlank_of_mem_head?_trim (hc : c ∈ (trim text).head?) : isBlank c = false := by
  obtain ⟨back, hback, -⟩ := exists_trimEnd_append (text.dropWhile isBlank)
  obtain ⟨rest, hrest⟩ := List.head?_eq_some_iff.1 hc
  have hfirst : (text.dropWhile isBlank).head? = some c := by
    rw [hback]
    show (trim text ++ back).head? = some c
    rw [hrest]
    rfl
  exact isBlank_of_mem_head?_dropWhile hfirst

/-- No blank is left at the end. -/
theorem isBlank_of_mem_getLast?_trim (hc : c ∈ (trim text).getLast?) : isBlank c = false := by
  rw [trim, trimEnd, List.getLast?_reverse] at hc
  exact isBlank_of_mem_head?_dropWhile hc

end Text

namespace Symbol

/-- The nonterminals are the uppercase letters, by their numbers. -/
theorem isNonterminal_iff : isNonterminal c = true ↔ 65 ≤ c.toNat ∧ c.toNat ≤ 90 := by
  show decide ('A'.val ≤ c.val ∧ c.val ≤ 'Z'.val) = true ↔ _
  rw [decide_eq_true_iff, UInt32.le_iff_toNat_le, UInt32.le_iff_toNat_le]
  exact Iff.rfl

/-- The terminals are the lowercase letters and the digits, by their numbers. -/
theorem isTerminal_iff : isTerminal c = true ↔
    97 ≤ c.toNat ∧ c.toNat ≤ 122 ∨ 48 ≤ c.toNat ∧ c.toNat ≤ 57 := by
  show (decide ('a'.val ≤ c.val) && decide (c.val ≤ 'z'.val) || c.isDigit) = true ↔ _
  rw [Bool.or_eq_true, Bool.and_eq_true, Char.isDigit_iff_toNat, decide_eq_true_iff,
    decide_eq_true_iff, UInt32.le_iff_toNat_le, UInt32.le_iff_toNat_le]
  exact Iff.rfl

/-- **A terminal is not blank.** -/
theorem isBlank_of_isTerminal (h : isTerminal c = true) : Text.isBlank c = false := by
  rw [isTerminal_iff] at h
  exact Text.isBlank_eq_false (by omega) (by omega)

/-- **A nonterminal is not blank.** -/
theorem isBlank_of_isNonterminal (h : isNonterminal c = true) : Text.isBlank c = false := by
  rw [isNonterminal_iff] at h
  exact Text.isBlank_eq_false (by omega) (by omega)

/-- No symbol is both a terminal and a nonterminal. -/
theorem not_isTerminal_of_isNonterminal (h : isNonterminal c = true) : isTerminal c = false := by
  rw [isNonterminal_iff] at h
  rw [← Bool.not_eq_true, isTerminal_iff]
  omega

end Symbol

end FiniteState
