import Mathlib.Data.List.SplitBy
import FiniteState.Grammar.Parser
import FiniteState.Proofs.List
import FiniteState.Proofs.Text

/-!
# The lines of a production

The reader joins lines from left to right, and looks at what has been joined so far to
see whether the next line belongs to it.  Lines that are joined end as the last of
them does, so it comes to the same to look at neighbouring lines of the text: the
lines of a text fall into the longest runs in which each line continues the one
before it, and each run is one production.

## Main definitions

* `Grammar.runs` — the lines of a text, by production.
* `Grammar.joined` — the lines of a production as one.

## Main results

* `Grammar.map_snd_physicalLines` — the lines that are not blank, without their numbers.
* `Grammar.continues_joined` — joined lines end as the last of them does.
* `Grammar.logicalLines_eq` — **the lines that are read are the runs, joined**.
* `Grammar.logicalLines_of_apart` — lines that do not continue one another are read as they
  are.
-/

namespace FiniteState.Grammar

variable {line last : ℕ × List Char} {before rest group : List (ℕ × List Char)}
  {text : List Char}

/-- The lines of a text, in the longest runs of lines that continue one another. -/
def runs (text : List Char) : List (List (ℕ × List Char)) :=
  (physicalLines text).splitBy fun line next => continues line.2 next.2

/-- The lines of a run as one line with blanks between them, under the number of the
first. -/
def joined (group : List (ℕ × List Char)) : ℕ × List Char :=
  ((group.head?.map Prod.fst).getD 0, [' '].intercalate (group.map Prod.snd))

/-! ### Physical lines -/

theorem ne_nil_of_mem_physicalLines (h : line ∈ physicalLines text) : line.2 ≠ [] := by
  obtain ⟨numbered, -, hline⟩ := List.mem_filterMap.1 h
  obtain ⟨hne, heq⟩ := Option.ite_none_left_eq_some.1 hline
  cases heq
  simpa using hne

/-- The lines that are not blank, without their numbers. -/
theorem map_snd_physicalLines (text : List Char) :
    (physicalLines text).map Prod.snd =
      ((text.splitOn '\n').map Text.trim).filter fun line => !line.isEmpty := by
  have hkept : ∀ (lines : List (List Char)) (n : ℕ),
      ((lines.zipIdx n).filterMap fun line =>
        if line.1.isEmpty then none else some (line.2, line.1)).map Prod.snd =
          lines.filter fun line => !line.isEmpty := by
    intro lines
    induction lines with
    | nil => intro n; rfl
    | cons line lines ih =>
      intro n
      rw [List.zipIdx_cons, List.filterMap_cons, List.filter_cons]
      by_cases hempty : line.isEmpty = true
      · simp only [hempty, if_true, Bool.not_true, Bool.false_eq_true, if_false]
        exact ih (n + 1)
      · simp only [hempty, if_false, Bool.false_eq_true, Bool.not_false, if_true, List.map_cons]
        rw [ih (n + 1)]
  exact hkept _ 1

/-! ### Joining lines -/

theorem joinLines_cons (current line : ℕ × List Char) (rest : List (ℕ × List Char)) :
    joinLines current (line :: rest) =
      if continues current.2 line.2 then joinLines (current.1, current.2 ++ ' ' :: line.2) rest
      else current :: joinLines line rest := rfl

@[simp] theorem joined_singleton (line : ℕ × List Char) : joined [line] = line := by
  simp [joined]

/-- Joined lines with one more are joined lines, a blank and the line. -/
theorem joined_append_cons (before : List (ℕ × List Char)) (last line : ℕ × List Char) :
    joined (before ++ [last, line]) =
      ((joined (before ++ [last])).1, (joined (before ++ [last])).2 ++ ' ' :: line.2) := by
  have htext := List.intercalate_append_pair [' '] (before.map Prod.snd) last.2 line.2
  have hnumber : (before ++ [last, line]).head? = (before ++ [last]).head? := by
    cases before <;> rfl
  simp only [joined, List.map_append, List.map_cons, List.map_nil, htext, hnumber,
    List.singleton_append]

/-- Joined lines end in the last of them, and there is no dash before it. -/
theorem exists_joined_eq (before : List (ℕ × List Char)) (last : ℕ × List Char) :
    ∃ front, (joined (before ++ [last])).2 = front ++ last.2 ∧ ¬ ['-'] <:+ front := by
  rcases before.eq_nil_or_concat' with rfl | ⟨before, previous, rfl⟩
  · exact ⟨[], by simp, by simp⟩
  · refine ⟨(joined (before ++ [previous])).2 ++ [' '], ?_, ?_⟩
    · rw [List.append_assoc, List.singleton_append, joined_append_cons]
      simp
    · intro hdash
      rcases List.suffix_concat_iff.1 hdash with h | ⟨t, h, -⟩
      · cases h
      · have := congrArg List.getLast? h
        simp at this

/-- An arrow at the end of a text stands in its last part, unless a dash ends the part
before. -/
theorem arrow_suffix_append_iff {front text : List Char} (htext : text ≠ [])
    (hfront : ¬ ['-'] <:+ front) : ['-', '>'] <:+ front ++ text ↔ ['-', '>'] <:+ text := by
  constructor
  · intro h
    obtain ⟨text, c, rfl⟩ := (List.eq_nil_or_concat' text).resolve_left htext
    rw [← List.append_assoc] at h
    rcases List.suffix_concat_iff.1 h with h | ⟨t, ht, hsuffix⟩
    · cases h
    · have ht : ['-'] ++ ['>'] = t ++ [c] := ht
      obtain ⟨rfl, hc⟩ := List.append_inj' ht rfl
      rcases text.eq_nil_or_concat' with rfl | ⟨text, d, rfl⟩
      · rw [List.append_nil] at hsuffix
        exact absurd hsuffix hfront
      · rw [← List.append_assoc] at hsuffix
        rcases List.suffix_concat_iff.1 hsuffix with h | ⟨t, ht, -⟩
        · cases h
        · have ht : [] ++ ['-'] = t ++ [d] := ht
          obtain ⟨rfl, hd⟩ := List.append_inj' ht rfl
          rw [← hc, ← hd]
          exact ⟨text, by simp⟩
  · intro h
    exact h.trans (List.suffix_append front text)

/-- **Joined lines are continued by the lines that continue the last of them.** -/
theorem continues_joined (hlast : last.2 ≠ []) :
    continues (joined (before ++ [last])).2 text = continues last.2 text := by
  obtain ⟨front, hfront, hdash⟩ := exists_joined_eq before last
  have harrow : ['-', '>'].isSuffixOf (front ++ last.2) = ['-', '>'].isSuffixOf last.2 := by
    rw [Bool.eq_iff_iff, List.isSuffixOf_iff_suffix, List.isSuffixOf_iff_suffix]
    exact arrow_suffix_append_iff hlast hdash
  rw [hfront, continues, continues, List.getLast?_append_of_ne_nil _ hlast, harrow]

/-- Joining goes on from a run that has been joined.  The induction is on the lines that
follow; the run grows by those that continue it. -/
theorem joinLines_joined
    (hchain : (before ++ [last]).IsChain fun line next => continues line.2 next.2)
    (hlines : ∀ line ∈ last :: rest, line.2 ≠ []) :
    joinLines (joined (before ++ [last])) rest =
      ((before ++ last :: rest).splitBy fun line next => continues line.2 next.2).map joined := by
  induction rest generalizing before last with
  | nil =>
    rw [List.splitBy_of_isChain (by simp) hchain]
    rfl
  | cons line rest ih =>
    have hlast : last.2 ≠ [] := hlines last List.mem_cons_self
    have hrest : ∀ line' ∈ line :: rest, line'.2 ≠ [] := fun line' h =>
      hlines line' (List.mem_cons_of_mem _ h)
    rw [joinLines_cons, continues_joined hlast]
    split
    · rename_i hcontinues
      have hlonger : ((before ++ [last]) ++ [line]).IsChain
          fun line next => continues line.2 next.2 := by
        refine List.isChain_append.2 ⟨hchain, by simp, ?_⟩
        simpa using hcontinues
      have := ih hlonger hrest
      rwa [List.append_assoc, List.singleton_append, joined_append_cons, List.append_assoc,
        List.singleton_append] at this
    · rename_i hapart
      have hsplit : (before ++ last :: line :: rest).splitBy
          (fun line next => continues line.2 next.2) =
            (before ++ [last]) ::
              (line :: rest).splitBy fun line next => continues line.2 next.2 := by
        rw [List.append_cons, List.splitBy_append_cons, List.splitBy_of_isChain (by simp) hchain,
          List.singleton_append]
        simpa using hapart
      have hone : ([] ++ [line]).IsChain fun (line next : ℕ × List Char) =>
          continues line.2 next.2 := List.isChain_singleton line
      have := ih hone hrest
      rw [List.nil_append, List.nil_append, joined_singleton] at this
      rw [hsplit, List.map_cons, this]

/-- **The lines that are read are the runs of lines that continue one another**, each
joined to one line under the number of its first. -/
theorem logicalLines_eq (text : List Char) : logicalLines text = (runs text).map joined := by
  have hlines : ∀ line ∈ physicalLines text, line.2 ≠ [] := fun _ h =>
    ne_nil_of_mem_physicalLines h
  rw [logicalLines, runs]
  cases hphysical : physicalLines text with
  | nil => rfl
  | cons first rest =>
    rw [hphysical] at hlines
    have hone : ([] ++ [first]).IsChain fun (line next : ℕ × List Char) =>
        continues line.2 next.2 := List.isChain_singleton first
    have := joinLines_joined hone hlines
    rwa [List.nil_append, List.nil_append, joined_singleton] at this

/-! ### Lines that stand alone -/

theorem joinLines_of_apart {first : ℕ × List Char}
    (h : ∀ line ∈ first :: rest, ∀ next ∈ rest, continues line.2 next.2 = false) :
    joinLines first rest = first :: rest := by
  induction rest generalizing first with
  | nil => rfl
  | cons line rest ih =>
    have hfirst := h first List.mem_cons_self line List.mem_cons_self
    have hrest : ∀ line' ∈ line :: rest, ∀ next ∈ rest, continues line'.2 next.2 = false :=
      fun line' hline' next hnext =>
        h line' (List.mem_cons_of_mem _ hline') next (List.mem_cons_of_mem _ hnext)
    rw [joinLines_cons, hfirst, if_neg Bool.false_ne_true, ih hrest]

/-- **Lines that do not continue one another are read as they are.** -/
theorem logicalLines_of_apart
    (h : ∀ line ∈ physicalLines text, ∀ next ∈ physicalLines text,
      continues line.2 next.2 = false) : logicalLines text = physicalLines text := by
  rw [logicalLines]
  cases hphysical : physicalLines text with
  | nil => rfl
  | cons first rest =>
    rw [hphysical] at h
    exact joinLines_of_apart fun line hline next hnext =>
      h line hline next (List.mem_cons_of_mem _ hnext)

end FiniteState.Grammar
