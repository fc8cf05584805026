import FiniteState.Proofs.Regex.Syntax
import Mathlib.Data.List.Induction
import Mathlib.Order.Bounds.Basic
import Mathlib.Order.Nat

/-!
# What is reported of a text

A text that is no regular expression has a defect, and often several.  Which of them is
reported can be read off the text without reading it as an expression.  A character that
may not occur comes first, wherever it stands.  Then comes the leftmost star that has
nothing to repeat, or the leftmost parenthesis that closes nothing, whichever is further
to the left.  Only a text without any of these is read to its end, and then the last of
the parentheses that stay open is reported.

While nothing is out of place the reader knows two things of the text behind it: the
columns of the parentheses that are open there, and whether a star may come next.  The
open parentheses cut that text into pieces in which all parentheses match, and this is
all that is needed to see which of them stay open to the end.

## Main definitions

* `Regex.Unsupported`, `Regex.DanglingStar`, `Regex.UnexpectedParenthesis`,
  `Regex.UnclosedParenthesis` — the defects, each at a place of the text.
* `Regex.Diagnosis` — **what is to be reported of a text**.
* `Regex.OpenAt` — the columns of the parentheses that are open after a text.
* `Regex.ParseState.Scanned` — what the reader knows of the text behind it.

## Main results

* `Regex.OpenAt.isGreatest` — the innermost open parenthesis is the last unclosed one.
* `Regex.scanned_readChar`, `Regex.exists_scanned` — **one character, and a whole text
  without misplaced characters, is read**.
* `Regex.parse_diagnosis` — the reader reports what is to be reported.
-/

namespace FiniteState.Regex

variable {text u v : List Char} {c : Char} {i : ℕ} {opened : List ℕ} {state : ParseState}
  {error : Located ParseError}

/-! ### Defects

Places count from zero, and the columns of a report from one. -/

/-- The character is neither a terminal nor an operator nor blank. -/
def Unsupported (text : List Char) (i : ℕ) : Prop :=
  ∃ c, text[i]? = some c ∧ Symbol.isTerminal c = false ∧ c ∉ ['(', ')', '*', '|'] ∧
    Text.isBlank c = false

/-- The last character of the text, blanks apart, is nothing that can be repeated, or there is
none. -/
def NothingToRepeat (text : List Char) : Prop :=
  ∀ c ∈ (unspaced text).getLast?, c ∈ ['(', '|', '*']

/-- There is a star, and nothing to repeat before it. -/
def DanglingStar (text : List Char) (i : ℕ) : Prop :=
  text[i]? = some '*' ∧ NothingToRepeat (text.take i)

/-- A parenthesis is closed, and so far more are closed than opened. -/
def UnexpectedParenthesis (text : List Char) (i : ℕ) : Prop :=
  text[i]? = some ')' ∧ (text.take (i + 1)).count '(' < (text.take (i + 1)).count ')'

/-- The character is out of place where it stands. -/
def Misplaced (text : List Char) (i : ℕ) : Prop :=
  DanglingStar text i ∨ UnexpectedParenthesis text i

/-- No part at the beginning of the text closes more parentheses than it opens. -/
def OpensFirst (text : List Char) : Prop := ∀ u, u <+: text → u.count ')' ≤ u.count '('

/-- A parenthesis is opened, and what follows does not close it. -/
def UnclosedParenthesis (text : List Char) (i : ℕ) : Prop :=
  text[i]? = some '(' ∧ OpensFirst (text.drop (i + 1))

/-- **What is to be reported of a text**, or that nothing is. -/
inductive Diagnosis (text : List Char) : Option (Located ParseError) → Prop
  /-- The leftmost character that may not occur. -/
  | unsupportedCharacter {i : ℕ} {c : Char} :
    IsLeast {j | Unsupported text j} i → text[i]? = some c →
      Diagnosis text (some (errorAt (i + 1) (.unsupportedCharacter c)))
  /-- Where all may occur, the leftmost misplaced character, if it is a star. -/
  | danglingStar {i : ℕ} :
    (∀ j, ¬ Unsupported text j) → IsLeast {j | Misplaced text j} i → DanglingStar text i →
      Diagnosis text (some (errorAt (i + 1) .danglingStar))
  /-- The same, if it is a parenthesis. -/
  | unexpectedParenthesis {i : ℕ} :
    (∀ j, ¬ Unsupported text j) → IsLeast {j | Misplaced text j} i →
      UnexpectedParenthesis text i →
      Diagnosis text (some (errorAt (i + 1) .unexpectedParenthesis))
  /-- Where none is misplaced, the rightmost parenthesis that stays open. -/
  | unbalancedParenthesis {i : ℕ} :
    (∀ j, ¬ Unsupported text j) → (∀ j, ¬ Misplaced text j) →
      IsGreatest {j | UnclosedParenthesis text j} i →
      Diagnosis text (some (errorAt (i + 1) .unbalancedParenthesis))
  /-- Nothing else can be wrong. -/
  | nothing :
    (∀ j, ¬ Unsupported text j) → (∀ j, ¬ Misplaced text j) →
      (∀ j, ¬ UnclosedParenthesis text j) → Diagnosis text none

/-! ### Defects of the beginning of a text -/

theorem getElem?_append_of_eq_some (h : u[i]? = some c) (v : List Char) :
    (u ++ v)[i]? = some c := by
  rw [List.getElem?_append_left (List.getElem?_eq_some_iff.1 h).1, h]

theorem take_append_of_eq_some (h : u[i]? = some c) (v : List Char) :
    (u ++ v).take i = u.take i ∧ (u ++ v).take (i + 1) = u.take (i + 1) := by
  have hi := (List.getElem?_eq_some_iff.1 h).1
  exact ⟨List.take_append_of_le_length hi.le, List.take_append_of_le_length hi⟩

theorem Unsupported.append (h : Unsupported u i) (v : List Char) : Unsupported (u ++ v) i := by
  obtain ⟨c, hc, hkind⟩ := h
  exact ⟨c, getElem?_append_of_eq_some hc v, hkind⟩

/-- What is misplaced does not depend on what follows. -/
theorem Misplaced.append (h : Misplaced u i) (v : List Char) : Misplaced (u ++ v) i := by
  rcases h with ⟨hstar, hnothing⟩ | ⟨hclosing, hcount⟩
  · refine .inl ⟨getElem?_append_of_eq_some hstar v, ?_⟩
    rwa [(take_append_of_eq_some hstar v).1]
  · refine .inr ⟨getElem?_append_of_eq_some hclosing v, ?_⟩
    rwa [(take_append_of_eq_some hclosing v).2]

theorem Unsupported.lt_length (h : Unsupported u i) : i < u.length := by
  obtain ⟨c, hc, -⟩ := h
  exact (List.getElem?_eq_some_iff.1 hc).1

theorem Misplaced.lt_length (h : Misplaced u i) : i < u.length := by
  rcases h with ⟨hc, -⟩ | ⟨hc, -⟩ <;> exact (List.getElem?_eq_some_iff.1 hc).1

/-- Before the leftmost unsupported character there is none. -/
theorem not_unsupported_of_isLeast (h : IsLeast {j | Unsupported (u ++ v) j} u.length) (j : ℕ) :
    ¬ Unsupported u j :=
  fun hj => (h.2 (hj.append v)).not_gt hj.lt_length

/-- Before the leftmost misplaced character nothing is misplaced. -/
theorem not_misplaced_of_isLeast (h : IsLeast {j | Misplaced (u ++ v) j} u.length) (j : ℕ) :
    ¬ Misplaced u j :=
  fun hj => (h.2 (hj.append v)).not_gt hj.lt_length

/-- A text around one of its characters. -/
theorem exists_eq_append_of_getElem? (h : text[i]? = some c) :
    ∃ u v, text = u ++ c :: v ∧ u.length = i := by
  obtain ⟨hi, rfl⟩ := List.getElem?_eq_some_iff.1 h
  refine ⟨text.take i, text.drop (i + 1), ?_, List.length_take_of_le hi.le⟩
  rw [← List.drop_eq_getElem_cons hi, List.take_append_drop]

theorem isSupported_iff : isSupported c = true ↔
    Symbol.isTerminal c = true ∨ c ∈ ['(', ')', '*', '|'] ∨ Text.isBlank c = true := by
  simp [isSupported, or_assoc]

theorem isSupported_of_not_unsupported (h : ∀ i, ¬ Unsupported text i) (hc : c ∈ text) :
    isSupported c = true := by
  by_contra hnot
  rw [isSupported_iff] at hnot
  simp only [not_or, Bool.not_eq_true] at hnot
  obtain ⟨i, hi⟩ := List.mem_iff_getElem?.1 hc
  exact h i ⟨c, hi, hnot⟩

/-! ### Matching parentheses -/

/-- All parentheses of the text match. -/
structure Matched (text : List Char) : Prop where
  /-- Nothing is closed that was not opened. -/
  opensFirst : OpensFirst text
  /-- All that is opened is closed. -/
  count_le : text.count '(' ≤ text.count ')'

/-- As many parentheses are opened as are closed. -/
theorem Matched.count_eq (h : Matched text) : text.count '(' = text.count ')' :=
  le_antisymm h.count_le (h.opensFirst text List.prefix_rfl)

theorem OpensFirst.append (hu : OpensFirst u) (hv : OpensFirst v) : OpensFirst (u ++ v) := by
  rintro w ⟨rest, hw⟩
  rcases List.append_eq_append_iff.1 hw with ⟨w', rfl, -⟩ | ⟨w', rfl, rfl⟩
  · exact hu w (List.prefix_append w w')
  · have hall := hu u List.prefix_rfl
    have hrest := hv w' (List.prefix_append w' rest)
    rw [List.count_append, List.count_append]
    omega

theorem matched_nil : Matched [] := ⟨fun u hu => by simp [List.prefix_nil.1 hu], le_rfl⟩

theorem Matched.append (hu : Matched u) (hv : Matched v) : Matched (u ++ v) := by
  refine ⟨hu.opensFirst.append hv.opensFirst, ?_⟩
  have hleft := hu.count_le
  have hright := hv.count_le
  rw [List.count_append, List.count_append]
  omega

theorem matched_singleton (hopen : c ≠ '(') (hclose : c ≠ ')') : Matched [c] := by
  have hcount : [c].count '(' = 0 ∧ [c].count ')' = 0 := by
    simp [hopen, hclose]
  refine ⟨fun u hu => ?_, by omega⟩
  have := hu.sublist.count_le ')'
  omega

theorem Matched.group (h : Matched u) : Matched ('(' :: (u ++ [')'])) := by
  have hcount := h.count_eq
  refine ⟨fun w hw => ?_, by simp [hcount]⟩
  rcases List.prefix_cons_iff.1 hw with rfl | ⟨w', rfl, hw'⟩
  · simp
  rcases List.prefix_concat_iff.1 hw' with rfl | hw'
  · simp [hcount]
  · have := h.opensFirst w' hw'
    simp
    omega

/-- Where all parentheses match, more are closed behind an open one than are opened. -/
theorem Matched.not_opensFirst (h : Matched (u ++ '(' :: v)) : ¬ OpensFirst v := by
  intro hv
  have hbefore := h.opensFirst u (List.prefix_append u _)
  have hafter := hv v List.prefix_rfl
  have hcount := h.count_le
  simp only [List.count_append, List.count_cons_self,
    List.count_cons_of_ne (show '(' ≠ ')' by decide)] at hcount
  omega

theorem Matched.not_unclosedParenthesis (h : Matched text) (i : ℕ) :
    ¬ UnclosedParenthesis text i := by
  rintro ⟨hopen, hrest⟩
  obtain ⟨u, v, rfl, rfl⟩ := exists_eq_append_of_getElem? hopen
  refine h.not_opensFirst (v := v) ?_
  simpa using hrest

/-! ### Open parentheses -/

/-- **The columns of the parentheses that are open after the text**, the innermost one first.
They cut the text into pieces in which all parentheses match. -/
inductive OpenAt : List Char → List ℕ → Prop
  | none {u : List Char} : Matched u → OpenAt u []
  | cons {u v : List Char} {opened : List ℕ} :
    OpenAt u opened → Matched v → OpenAt (u ++ '(' :: v) ((u.length + 1) :: opened)

namespace OpenAt

theorem append (h : OpenAt u opened) (hv : Matched v) : OpenAt (u ++ v) opened := by
  cases h with
  | none hu => exact .none (hu.append hv)
  | cons hu hv' =>
    rw [List.append_assoc, List.cons_append]
    exact .cons hu (hv'.append hv)

theorem opening (h : OpenAt u opened) : OpenAt (u ++ ['(']) ((u.length + 1) :: opened) :=
  .cons h matched_nil

/-- The innermost parenthesis is closed. -/
theorem closing {column : ℕ} (h : OpenAt u (column :: opened)) :
    OpenAt (u ++ [')']) opened := by
  cases h with
  | cons hu hv =>
    rw [List.append_assoc, List.cons_append]
    exact hu.append hv.group

/-- Where none is open, none is unclosed. -/
theorem not_unclosedParenthesis (h : OpenAt text []) (i : ℕ) : ¬ UnclosedParenthesis text i := by
  cases h with
  | none htext => exact htext.not_unclosedParenthesis i

theorem count_eq (h : OpenAt u opened) : u.count '(' = u.count ')' + opened.length := by
  induction h with
  | none hu => simp [hu.count_eq]
  | cons _ hv ih =>
    simp only [List.count_append, List.count_cons_self, hv.count_eq, ih, List.length_cons,
      List.count_cons_of_ne (show '(' ≠ ')' by decide)]
    omega

/-- **The innermost open parenthesis is the last one that is unclosed.** -/
theorem isGreatest {column : ℕ} (h : OpenAt text (column :: opened)) :
    ∃ i, column = i + 1 ∧ IsGreatest {j | UnclosedParenthesis text j} i := by
  cases h with
  | @cons u v _ _ hv =>
    refine ⟨u.length, rfl, ⟨by simp, by simpa using hv.opensFirst⟩, ?_⟩
    -- behind it there are matching parentheses only
    rintro j ⟨hopen, hrest⟩
    by_contra! hlt
    obtain ⟨k, rfl⟩ : ∃ k, j = u.length + (k + 1) := ⟨j - u.length - 1, by omega⟩
    refine hv.not_unclosedParenthesis k ⟨?_, ?_⟩
    · rwa [List.getElem?_append_right (by omega), Nat.add_sub_cancel_left,
        List.getElem?_cons_succ] at hopen
    · rwa [Nat.add_assoc, List.drop_length_add_append, List.drop_succ_cons] at hrest

end OpenAt

/-! ### Reading a text without misplaced characters -/

/-- **What the reader knows of the text behind it**: the frames that wait stand at the open
parentheses, and a piece is kept exactly if a star may repeat it. -/
structure ParseState.Scanned (state : ParseState) (text : List Char) : Prop where
  /-- The frames that wait stand at the open parentheses. -/
  openAt : OpenAt text (state.outer.map Prod.fst)
  /-- There is no piece for a star where there is nothing to repeat. -/
  last_eq_none_iff : state.inner.last = none ↔ NothingToRepeat text

theorem unspaced_concat_of_blank (hc : Text.isBlank c = true) :
    unspaced (text ++ [c]) = unspaced text := by
  simp [unspaced, hc]

theorem nothingToRepeat_concat (hc : Text.isBlank c = false) :
    NothingToRepeat (text ++ [c]) ↔ c ∈ ['(', '|', '*'] := by
  simp [NothingToRepeat, unspaced, hc]

/-- A blank changes nothing. -/
theorem ParseState.Scanned.blank (h : state.Scanned text) (hc : Text.isBlank c = true) :
    state.Scanned (text ++ [c]) where
  openAt := by
    refine h.openAt.append (matched_singleton ?_ ?_) <;>
    · rintro rfl
      cases hc
  last_eq_none_iff := by
    rw [NothingToRepeat, unspaced_concat_of_blank hc]
    exact h.last_eq_none_iff

/-- A star after nothing that can be repeated is reported. -/
theorem readChar_star_eq_error (h : state.Scanned text) (hnothing : NothingToRepeat text)
    (column : ℕ) : readChar state (column, '*') = .error (errorAt column .danglingStar) := by
  simp only [readChar, Frame.star?, h.last_eq_none_iff.2 hnothing, Option.map_none]

/-- So is a parenthesis that closes none of the open ones. -/
theorem readChar_closing_eq_error (h : state.Scanned text)
    (hcount : (text ++ [')']).count '(' < (text ++ [')']).count ')') (column : ℕ) :
    readChar state (column, ')') = .error (errorAt column .unexpectedParenthesis) := by
  have hopen := h.openAt.count_eq
  have houter : state.outer = [] := by
    rw [← List.length_eq_zero_iff]
    simp [List.count_append] at hcount hopen
    omega
  simp only [readChar, houter]

theorem readChar_of_reads {f f' : Frame} {outer : List (ℕ × Frame)} (h : Reads [c] f f')
    (column : ℕ) : readChar ⟨f, outer⟩ (column, c) = .ok ⟨f', outer⟩ := by
  simpa using h [(column, c)] outer rfl

/-- **One character is read**, if it may occur and is not misplaced. -/
theorem scanned_readChar (h : state.Scanned text) (hblank : Text.isBlank c = false)
    (hc : isSupported c = true) (hplaced : ¬ Misplaced (text ++ [c]) text.length) :
    ∃ state', readChar state (text.length + 1, c) = .ok state' ∧ state'.Scanned (text ++ [c]) := by
  have hlast : NothingToRepeat (text ++ [c]) ↔ c ∈ ['(', '|', '*'] := nothingToRepeat_concat hblank
  have hsame (hopen : c ≠ '(') (hclose : c ≠ ')') :
      OpenAt (text ++ [c]) (state.outer.map Prod.fst) :=
    h.openAt.append (matched_singleton hopen hclose)
  rw [isSupported_iff, hblank] at hc
  rcases hc with hterminal | hoperator | hc
  · refine ⟨_, readChar_of_reads (reads_terminal hterminal state.inner) _, hsame ?_ ?_, ?_⟩
    · rintro rfl
      cases hterminal
    · rintro rfl
      cases hterminal
    · rw [hlast]
      refine iff_of_false (by simp [Frame.push]) fun hmem => ?_
      simp only [List.mem_cons, List.not_mem_nil, or_false] at hmem
      rcases hmem with rfl | rfl | rfl <;> cases hterminal
  · simp only [List.mem_cons, List.not_mem_nil, or_false] at hoperator
    rcases hoperator with rfl | rfl | rfl | rfl
    · -- an opening parenthesis, which stays open for now
      refine ⟨_, rfl, h.openAt.opening, ?_⟩
      rw [hlast]
      exact iff_of_true rfl (by decide)
    · -- a closing one, which closes the innermost open one, as there is one
      rcases houter : state.outer with _ | ⟨⟨column, frame⟩, outer⟩
      · have hcount := h.openAt.count_eq
        refine absurd (.inr ⟨by simp, ?_⟩) hplaced
        rw [List.take_of_length_le (by simp)]
        simp [houter] at hcount ⊢
        omega
      · have hopen := h.openAt
        rw [houter] at hopen
        refine ⟨⟨frame.push state.inner.close, outer⟩, by simp only [readChar, houter],
          hopen.closing, ?_⟩
        rw [hlast]
        exact iff_of_false (by simp [Frame.push]) (by decide)
    · -- a star, which repeats the last piece, as there is one
      have hpiece : state.inner.last ≠ none := by
        rw [Ne, h.last_eq_none_iff]
        intro hnothing
        refine hplaced (.inl ⟨by simp, ?_⟩)
        rwa [List.take_left]
      obtain ⟨piece, hpiece⟩ := Option.ne_none_iff_exists'.1 hpiece
      obtain ⟨frame, hstar, hframe⟩ : ∃ f, state.inner.star? = some f ∧ f.last = none :=
        ⟨_, by rw [Frame.star?, hpiece, Option.map_some], rfl⟩
      refine ⟨_, readChar_of_reads (reads_star hstar) _, hsame (by decide) (by decide), ?_⟩
      rw [hlast]
      exact iff_of_true hframe (by decide)
    · refine ⟨_, readChar_of_reads (reads_bar state.inner) _, hsame (by decide) (by decide), ?_⟩
      rw [hlast]
      exact iff_of_true rfl (by decide)
  · cases hc

/-! ### Reading the beginning of a text -/

/-- The characters of a text that are not blank, with their columns. -/
def visible (text : List Char) : List (ℕ × Char) :=
  (columns text).filter fun c => !Text.isBlank c.2

theorem columns_append_cons (u v : List Char) (c : Char) :
    ∃ rest, columns (u ++ c :: v) = columns u ++ (u.length + 1, c) :: rest := by
  refine ⟨(v.zipIdx (u.length + 1 + 1)).map fun c => (c.2, c.1), ?_⟩
  simp [columns, List.zipIdx_append, Nat.add_comm]

theorem columns_concat (u : List Char) (c : Char) :
    columns (u ++ [c]) = columns u ++ [(u.length + 1, c)] := by
  simp [columns, List.zipIdx_append, Nat.add_comm]

/-- **A text without misplaced characters is read.** -/
theorem exists_scanned (hsupported : ∀ i, ¬ Unsupported text i)
    (hplaced : ∀ i, ¬ Misplaced text i) :
    ∃ state, (visible text).foldlM readChar ⟨.blank, []⟩ = .ok state ∧ state.Scanned text := by
  -- the reader goes from left to right, so the text grows at its end
  induction text using List.reverseRecOn with
  | nil => exact ⟨_, rfl, .none matched_nil, iff_of_true rfl (by simp [NothingToRepeat, unspaced])⟩
  | append_singleton text c ih =>
    obtain ⟨state, hread, hstate⟩ := ih (fun i h => hsupported i (h.append [c]))
      fun i h => hplaced i (h.append [c])
    by_cases hblank : Text.isBlank c = true
    · refine ⟨state, ?_, hstate.blank hblank⟩
      simpa [visible, columns_concat, hblank] using hread
    · rw [Bool.not_eq_true] at hblank
      have hc := isSupported_of_not_unsupported hsupported (c := c) (by simp)
      obtain ⟨state', hstep, hstate'⟩ := scanned_readChar hstate hblank hc (hplaced _)
      refine ⟨state', ?_, hstate'⟩
      have hvisible : visible (text ++ [c]) = visible text ++ [(text.length + 1, c)] := by
        simp [visible, columns_concat, hblank]
      rw [hvisible, List.foldlM_append, hread]
      show [(text.length + 1, c)].foldlM readChar state = _
      rw [List.foldlM_cons, hstep]
      rfl

theorem mem_of_mem_columns {p : ℕ × Char} (h : p ∈ columns text) : p.2 ∈ text := by
  obtain ⟨⟨c, i⟩, hc, rfl⟩ := List.mem_map.1 h
  exact (List.mem_zipIdx hc).2.2 ▸ List.getElem_mem _

theorem find?_columns_eq_none (h : ∀ i, ¬ Unsupported text i) :
    ((columns text).find? fun c => !isSupported c.2) = none := by
  rw [List.find?_eq_none]
  intro p hp
  simp [isSupported_of_not_unsupported h (mem_of_mem_columns hp)]

/-- The first character that may not occur is reported before anything else. -/
theorem parse_eq_unsupportedCharacter (h : IsLeast {j | Unsupported text j} i)
    (hc : text[i]? = some c) :
    parse text = .error (errorAt (i + 1) (.unsupportedCharacter c)) := by
  obtain ⟨u, v, rfl, rfl⟩ := exists_eq_append_of_getElem? hc
  obtain ⟨rest, hrest⟩ := columns_append_cons u v c
  have hunsupported : isSupported c = false := by
    obtain ⟨c', hc', hterminal, hoperator, hblank⟩ := h.1
    obtain rfl := Option.some.inj (hc.symm.trans hc')
    rw [← Bool.not_eq_true, isSupported_iff]
    simp [hterminal, hoperator, hblank]
  have hfind : ((columns (u ++ c :: v)).find? fun c => !isSupported c.2) =
      some (u.length + 1, c) := by
    rw [hrest, List.find?_append, find?_columns_eq_none (not_unsupported_of_isLeast h),
      Option.none_or, List.find?_cons_of_pos]
    simp [hunsupported]
  rw [parse, hfind]

/-- Where the reader stops at a character, it does not matter what follows. -/
theorem parse_eq_error_of_readChar (hsupported : ∀ i, ¬ Unsupported (u ++ c :: v) i)
    (hread : (visible u).foldlM readChar ⟨.blank, []⟩ = .ok state)
    (hblank : Text.isBlank c = false) (hc : readChar state (u.length + 1, c) = .error error) :
    parse (u ++ c :: v) = .error error := by
  obtain ⟨rest, hrest⟩ := columns_append_cons u v c
  have hvisible : visible (u ++ c :: v) =
      visible u ++ (u.length + 1, c) :: rest.filter fun c => !Text.isBlank c.2 := by
    simp [visible, hrest, hblank]
  have hstop : (visible (u ++ c :: v)).foldlM readChar ⟨.blank, []⟩ = .error error := by
    rw [hvisible, List.foldlM_append, hread]
    show ((u.length + 1, c) :: rest.filter _).foldlM readChar state = _
    rw [List.foldlM_cons, hc]
    rfl
  rw [parse, find?_columns_eq_none hsupported]
  simp only
  rw [← visible, hstop]
  rfl

/-- A text without misplaced characters is read to its end. -/
theorem parse_eq_finish (hsupported : ∀ i, ¬ Unsupported text i)
    (hread : (visible text).foldlM readChar ⟨.blank, []⟩ = .ok state) :
    parse text = finish state := by
  rw [parse, find?_columns_eq_none hsupported]
  simp only
  rw [← visible, hread]
  rfl

/-- **At the end of the text** the innermost open parenthesis is reported, if there is one. -/
theorem finish_of_scanned (h : state.Scanned text) :
    ((∃ e, finish state = .ok e) ∧ ∀ i, ¬ UnclosedParenthesis text i) ∨
      ∃ i, finish state = .error (errorAt (i + 1) .unbalancedParenthesis) ∧
        IsGreatest {j | UnclosedParenthesis text j} i := by
  have hopen := h.openAt
  unfold finish
  rcases houter : state.outer with _ | ⟨⟨column, frame⟩, outer⟩
  · rw [houter] at hopen
    exact .inl ⟨⟨_, rfl⟩, hopen.not_unclosedParenthesis⟩
  · rw [houter] at hopen
    obtain ⟨i, rfl, hi⟩ := hopen.isGreatest
    exact .inr ⟨i, rfl, hi⟩

/-! ### All texts -/

/-- What is to be reported is reported. -/
theorem Diagnosis.parse_eq_error (h : Diagnosis text (some error)) :
    parse text = .error error := by
  cases h with
  | unsupportedCharacter hleast hc => exact parse_eq_unsupportedCharacter hleast hc
  | danglingStar hsupported hleast hstar =>
    obtain ⟨u, v, rfl, rfl⟩ := exists_eq_append_of_getElem? hstar.1
    obtain ⟨state, hread, hstate⟩ := exists_scanned
      (fun j hj => hsupported j (hj.append _)) (not_misplaced_of_isLeast hleast)
    have hnothing : NothingToRepeat u := by simpa using hstar.2
    exact parse_eq_error_of_readChar hsupported hread rfl
      (readChar_star_eq_error hstate hnothing _)
  | unexpectedParenthesis hsupported hleast hclosing =>
    obtain ⟨u, v, rfl, rfl⟩ := exists_eq_append_of_getElem? hclosing.1
    obtain ⟨state, hread, hstate⟩ := exists_scanned
      (fun j hj => hsupported j (hj.append _)) (not_misplaced_of_isLeast hleast)
    have hcount := hclosing.2
    rw [List.take_length_add_append, List.take_succ_cons, List.take_zero] at hcount
    exact parse_eq_error_of_readChar hsupported hread rfl
      (readChar_closing_eq_error hstate hcount _)
  | unbalancedParenthesis hsupported hplaced hgreatest =>
    obtain ⟨state, hread, hstate⟩ := exists_scanned hsupported hplaced
    rw [parse_eq_finish hsupported hread]
    rcases finish_of_scanned hstate with ⟨-, hclosed⟩ | ⟨i, hfinish, hi⟩
    · exact absurd hgreatest.1 (hclosed _)
    · rw [hfinish, hi.unique hgreatest]

/-- Where nothing is to be reported, the text is read. -/
theorem Diagnosis.exists_parse_eq_ok (h : Diagnosis text none) : ∃ e, parse text = .ok e := by
  cases h with
  | nothing hsupported hplaced hclosed =>
    obtain ⟨state, hread, hstate⟩ := exists_scanned hsupported hplaced
    rw [parse_eq_finish hsupported hread]
    rcases finish_of_scanned hstate with ⟨hfinish, -⟩ | ⟨i, -, hi⟩
    · exact hfinish
    · exact absurd hi.1 (hclosed i)

/-- **Every text has a diagnosis.** -/
theorem exists_diagnosis (text : List Char) : ∃ d, Diagnosis text d := by
  classical
  by_cases hsupported : ∃ j, Unsupported text j
  · have hleast := Nat.isLeast_find hsupported
    obtain ⟨c, hc, -⟩ := hleast.1
    exact ⟨_, .unsupportedCharacter hleast hc⟩
  push Not at hsupported
  by_cases hplaced : ∃ j, Misplaced text j
  · have hleast := Nat.isLeast_find hplaced
    rcases hleast.1 with hstar | hclosing
    · exact ⟨_, .danglingStar hsupported hleast hstar⟩
    · exact ⟨_, .unexpectedParenthesis hsupported hleast hclosing⟩
  push Not at hplaced
  obtain ⟨state, -, hstate⟩ := exists_scanned hsupported hplaced
  rcases finish_of_scanned hstate with ⟨-, hclosed⟩ | ⟨i, -, hi⟩
  · exact ⟨_, .nothing hsupported hplaced hclosed⟩
  · exact ⟨_, .unbalancedParenthesis hsupported hplaced hi⟩

/-- **The reader reports what is to be reported**, and it succeeds where there is nothing
to report. -/
theorem parse_diagnosis (text : List Char) :
    (∀ error, parse text = .error error ↔ Diagnosis text (some error)) ∧
      ((∃ e, parse text = .ok e) ↔ Diagnosis text none) := by
  obtain ⟨d, hd⟩ := exists_diagnosis text
  constructor
  · refine fun error => ⟨fun h => ?_, Diagnosis.parse_eq_error⟩
    cases d with
    | none =>
      obtain ⟨e, he⟩ := hd.exists_parse_eq_ok
      cases he.symm.trans h
    | some error' =>
      obtain rfl := Except.error.inj (hd.parse_eq_error.symm.trans h)
      exact hd
  · refine ⟨fun ⟨e, h⟩ => ?_, Diagnosis.exists_parse_eq_ok⟩
    cases d with
    | none => exact hd
    | some error' => cases hd.parse_eq_error.symm.trans h

/-- The first and the last of the three parentheses stay open, and the last one is reported. -/
example : parse "(a(b)* | (c".toList = .error (errorAt 10 .unbalancedParenthesis) := rfl

/-- The star has only a bar before it, blanks apart, and comes before the parenthesis. -/
example : parse "a |  * b)".toList = .error (errorAt 6 .danglingStar) := rfl

end FiniteState.Regex
