import FiniteState.Automaton.Edit
import FiniteState.Proofs.Label.Fresh

/-!
# Labels that an editor accepts

An editor accepts a label that begins with an uppercase letter or the sentinel and goes
on with uppercase letters, digits and sentinels.  The library itself names states by
single letters, by the labels of the sequence of fresh ones and by the sentinel, and all
of these are such labels.  So are the labels that the text of a cell can name.

## Main definitions

* `Label.Valid` — the labels that an editor accepts, as a statement on their characters.

## Main results

* `Label.isValid_iff` — the check of an editor decides the statement.
* `Label.valid_nth`, `LabelPool.valid_of_mem_names` — **fresh labels and new names are
  valid**, whatever the old names were.
* `Cell.valid_of_mem_parseTargets` — the text of a cell names only valid labels.
-/

namespace FiniteState

namespace Label

/-- An uppercase letter or the sentinel comes first, and uppercase letters, digits and
sentinels follow. -/
def Valid (l : Label) : Prop :=
  ∃ c rest, l.toList = c :: rest ∧ (c.isUpper = true ∨ c = '$') ∧
    ∀ d ∈ rest, d.isUpper = true ∨ d.isDigit = true ∨ d = '$'

theorem isValidText_iff {text : List Char} : isValidText text = true ↔
    ∃ c rest, text = c :: rest ∧ (c.isUpper = true ∨ c = '$') ∧
      ∀ d ∈ rest, d.isUpper = true ∨ d.isDigit = true ∨ d = '$' := by
  cases text with
  | nil => simp [isValidText]
  | cons c rest => simp [isValidText, isLabelChar, or_assoc]

/-- **The check of an editor decides the statement.** -/
theorem isValid_iff {l : Label} : l.isValid = true ↔ l.Valid := isValidText_iff

theorem valid_ofChar {c : Char} (hc : c.isUpper = true) : (ofChar c).Valid :=
  ⟨c, [], toList_ofChar c, .inl hc, by simp⟩

theorem valid_sentinel : sentinel.Valid := ⟨'$', [], rfl, .inr rfl, by simp⟩

theorem valid_of_isLetter {l : Label} (h : l.isLetter = true) : l.Valid := by
  unfold isLetter at h
  split at h
  · rename_i c hc
    exact ⟨c, [], hc, .inl h, by simp⟩
  · cases h

/-- **A fresh label is valid**: it is a letter with a number. -/
theorem valid_nth (i : ℕ) : (nth i).Valid := by
  refine ⟨_, _, toList_nth i, .inl (isUpper_letter i), ?_⟩
  intro d hd
  by_cases hi : i < 26
  · rw [if_pos hi] at hd
    exact absurd hd List.not_mem_nil
  · rw [if_neg hi, toList_toString] at hd
    have hdigit : d.isDigit = true := Nat.isDigit_of_mem_toDigits (by decide) (by decide) hd
    exact .inr (.inl hdigit)

end Label

/-- **A new name from a pool is valid**, whatever the old name was. -/
theorem LabelPool.valid_of_mem_names {pool : LabelPool} {labels : List Label} {l n : Label}
    (h : (l, n) ∈ (pool.names labels).1) : n.Valid := by
  rcases (of_mem_names h).2 with hletter | ⟨i, rfl⟩
  · exact Label.valid_of_isLetter hletter
  · exact Label.valid_nth i

/-! ### Cell texts -/

namespace Cell

theorem valid_of_mem_targetsOfSegments {segments : List (List Char)} {S : LabelSet}
    (h : targetsOfSegments segments = some S) : ∀ l ∈ S, l.Valid := by
  unfold targetsOfSegments at h
  split at h
  · cases h
  · dsimp only at h
    split at h
    · rename_i hall
      intro l hl
      rw [← Option.some.inj h, LabelSet.mem_ofList] at hl
      obtain ⟨segment, hsegment, rfl⟩ := List.mem_map.1 hl
      have hvalid := List.all_eq_true.1 hall segment hsegment
      rw [← Label.isValid_iff, Label.isValid, String.toList_ofList]
      exact hvalid
    · cases h

/-- **The text of a cell names only valid labels.** -/
theorem valid_of_mem_parseTargets {text : List Char} {S : LabelSet}
    (h : parseTargets text = some S) : ∀ l ∈ S, l.Valid := by
  unfold parseTargets at h
  dsimp only at h
  split at h
  · intro l hl
    rw [← Option.some.inj h] at hl
    exact absurd hl (LabelSet.notMem_empty l)
  · exact valid_of_mem_targetsOfSegments h

end Cell

end FiniteState
