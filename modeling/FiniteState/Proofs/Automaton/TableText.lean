import FiniteState.Automaton.Render
import FiniteState.Proofs.Automaton.CellText
import FiniteState.Proofs.Automaton.Obtainable
import FiniteState.Proofs.List

/-!
# Reading a table

A table is read line by line.  The blanks of a line carry nothing: they fill the columns,
stand around the bars and follow the commas.  So a line without its blanks is the texts of
the line without theirs, with bars between them, and is split at the bars, provided that no
text has a bar or a break in it.  Only the text of a rejected edit can have one.

The texts then say what they were made of.  The header names the symbols, and the first text
of a line is a label after the marks of its state, which are no characters of a label.  What
is left are cells, whose texts are read as their targets, with or without blanks.

## Main definitions

* `Text.squeeze`, `Text.bare` — a text without its blanks.
* `Text.readTable` — the texts of a table, without their blanks.
* `Automaton.Clean` — no cell holds the text of a rejected edit.
* `Automaton.SameTable` — the states, the symbols, the marks and the cells are the same.

## Main results

* `Automaton.readTable_table` — **the texts of a table are read back**, whatever the widths
  of the columns are.
* `Automaton.unmark_marker`, `Automaton.parseTargets_bare` — so are labels and targets.
* `Automaton.SameTable.table_eq` — a table shows nothing else.
* `Automaton.WellFormed.sameTable_of_table_eq` — **equal tables show the same automaton**.
-/

namespace FiniteState

/-! ### Lines without blanks -/

namespace Text

/-- The text without its blanks. -/
def squeeze (text : List Char) : List Char := text.filter fun c => !isBlank c

/-- The characters of the text without the blanks. -/
def bare (text : String) : List Char := squeeze text.toList

/-- The texts of a table, line by line, without their blanks. -/
def readTable (text : List Char) : List (List (List Char)) :=
  (text.splitOn '\n').dropLast.map fun line => (squeeze line).splitOn '|'

variable {text : List Char} {c : Char}

theorem mem_squeeze : c ∈ squeeze text ↔ c ∈ text ∧ isBlank c = false := by
  rw [squeeze, List.mem_filter, Bool.not_eq_true']

theorem squeeze_eq_nil (h : ∀ c ∈ text, isBlank c = true) : squeeze text = [] :=
  List.filter_eq_nil_iff.2 fun c hc => by rw [h c hc]; decide

theorem squeeze_eq_self (h : ∀ c ∈ text, isBlank c = false) : squeeze text = text :=
  List.filter_eq_self.2 fun c hc => by rw [h c hc, Bool.not_false]

theorem squeeze_append (front back : List Char) :
    squeeze (front ++ back) = squeeze front ++ squeeze back :=
  List.filter_append front back

theorem squeeze_trimEnd (text : List Char) : squeeze (trimEnd text) = squeeze text := by
  obtain ⟨back, htext, hback⟩ := exists_trimEnd_append text
  conv_rhs => rw [htext, squeeze_append, squeeze_eq_nil hback, List.append_nil]

theorem subset_trimEnd (text : List Char) : trimEnd text ⊆ text := by
  obtain ⟨back, htext, -⟩ := exists_trimEnd_append text
  intro c hc
  rw [htext]
  exact List.mem_append_left back hc

end Text

namespace Automaton

open Text

theorem toList_padLeft (width : ℕ) (text : String) :
    (padLeft width text).toList = List.replicate (width - text.length) ' ' ++ text.toList := by
  rw [padLeft, String.toList_append, String.toList_ofList]

/-- The blanks that fill a column carry nothing. -/
theorem bare_padLeft (width : ℕ) (text : String) : bare (padLeft width text) = bare text := by
  rw [bare, bare, toList_padLeft, squeeze_append, squeeze_eq_nil, List.nil_append]
  intro c hc
  rw [List.eq_of_mem_replicate hc]
  decide

/-- A line of a table without its break. -/
def lineText (widths : List ℕ) (texts : List String) : List Char :=
  trimEnd (" | ".intercalate (List.zipWith padLeft widths texts)).toList

variable {widths : List ℕ} {texts : List String} {c : Char}

theorem toList_renderLine (widths : List ℕ) (texts : List String) :
    (renderLine widths texts).toList = lineText widths texts ++ ['\n'] := by
  rw [renderLine, String.toList_append, String.toList_ofList]
  rfl

/-- What stands in a line stands in one of its texts, or is a bar or a blank. -/
theorem of_mem_lineText (hc : c ∈ lineText widths texts) :
    c = ' ' ∨ c = '|' ∨ ∃ text ∈ texts, c ∈ text.toList := by
  have hmem := subset_trimEnd _ hc
  rw [String.toList_intercalate] at hmem
  rcases List.mem_of_mem_intercalate hmem with hsep | ⟨piece, hpiece, hc⟩
  · have hbar : c ∈ [' ', '|', ' '] := hsep
    simp only [List.mem_cons, List.not_mem_nil, or_false] at hbar
    tauto
  · obtain ⟨padded, hpadded, rfl⟩ := List.mem_map.1 hpiece
    obtain ⟨i, hi, rfl⟩ := List.getElem_of_mem hpadded
    rw [List.getElem_zipWith, toList_padLeft, List.mem_append] at hc
    rcases hc with hc | hc
    · exact .inl (List.eq_of_mem_replicate hc)
    · exact .inr (.inr ⟨_, List.getElem_mem _, hc⟩)

/-- Where there is a column for every text, the columns carry nothing. -/
theorem map_bare_zipWith_padLeft (h : texts.length ≤ widths.length) :
    (List.zipWith padLeft widths texts).map bare = texts.map bare := by
  induction widths generalizing texts with
  | nil =>
    rw [List.eq_nil_of_length_eq_zero (Nat.le_zero.1 h)]
    rfl
  | cons width widths ih =>
    cases texts with
    | nil => rfl
    | cons text texts =>
      rw [List.zipWith_cons_cons, List.map_cons, List.map_cons, bare_padLeft,
        ih (Nat.le_of_succ_le_succ h)]

/-- **A line without its blanks is its texts without theirs, with bars between them.** -/
theorem squeeze_lineText (h : texts.length ≤ widths.length) :
    squeeze (lineText widths texts) = ['|'].intercalate (texts.map bare) := by
  rw [← map_bare_zipWith_padLeft h, lineText, squeeze_trimEnd, String.toList_intercalate,
    squeeze, List.filter_intercalate, List.map_map]
  rfl

/-- So it is split at the bars into its texts. -/
theorem splitOn_squeeze_lineText (h : texts.length ≤ widths.length) (hne : texts ≠ [])
    (hbar : ∀ text ∈ texts, '|' ∉ text.toList) :
    (squeeze (lineText widths texts)).splitOn '|' = texts.map bare := by
  rw [squeeze_lineText h]
  refine List.splitOn_intercalate '|' (fun piece hpiece => ?_)
    fun hnil => hne (List.map_eq_nil_iff.1 hnil)
  obtain ⟨text, htext, rfl⟩ := List.mem_map.1 hpiece
  exact fun hmem => hbar text htext (mem_squeeze.1 hmem).1

/-! ### The texts of a table -/

variable {fa fb : Automaton} {q : Label} {s : Symbol}

/-- All lines have a text for the state and one for each symbol. -/
theorem length_of_mem_grid (h : texts ∈ fa.grid) : texts.length = fa.alphabet.length + 1 := by
  rcases List.mem_cons.1 h with rfl | h
  · rw [header, List.length_cons, List.length_map]
  · obtain ⟨q, -, rfl⟩ := List.mem_map.1 h
    rw [line, List.length_cons, List.length_map]

theorem length_foldl_zipWith_max {n : ℕ} {lines : List (List ℕ)} {first : List ℕ}
    (hfirst : first.length = n) (h : ∀ line ∈ lines, line.length = n) :
    (lines.foldl (List.zipWith max) first).length = n := by
  induction lines generalizing first with
  | nil => exact hfirst
  | cons line lines ih =>
    refine ih ?_ fun line hline => h line (List.mem_cons_of_mem _ hline)
    rw [List.length_zipWith, hfirst, h line List.mem_cons_self, Nat.min_self]

/-- There is a column for every text. -/
theorem length_columnWidths_grid (fa : Automaton) :
    (columnWidths fa.grid).length = fa.alphabet.length + 1 := by
  have hlines : ∀ texts ∈ fa.grid, (texts.map String.length).length = fa.alphabet.length + 1 :=
    fun texts h => (List.length_map _).trans (length_of_mem_grid h)
  refine length_foldl_zipWith_max (hlines fa.header List.mem_cons_self) fun line hline => ?_
  obtain ⟨texts, htexts, rfl⟩ := List.mem_map.1 hline
  exact hlines texts (List.mem_cons_of_mem _ htexts)

theorem toList_table (fa : Automaton) :
    fa.table.toList =
      (fa.grid.map (lineText (columnWidths fa.grid))).flatMap (· ++ ['\n']) := by
  rw [table, String.toList_join, List.flatMap_map, List.flatMap_map]
  exact List.flatMap_congr fun texts _ => toList_renderLine _ texts

/-- **The texts of a table are read back**, whatever the widths of the columns are. -/
theorem readTable_table
    (h : ∀ texts ∈ fa.grid, ∀ text ∈ texts, '|' ∉ text.toList ∧ '\n' ∉ text.toList) :
    readTable fa.table.toList = fa.grid.map (List.map bare) := by
  have hlines : ∀ line ∈ fa.grid.map (lineText (columnWidths fa.grid)), '\n' ∉ line := by
    intro line hline hbreak
    obtain ⟨texts, htexts, rfl⟩ := List.mem_map.1 hline
    rcases of_mem_lineText hbreak with heq | heq | ⟨text, htext, hmem⟩
    · exact absurd heq (by decide)
    · exact absurd heq (by decide)
    · exact (h texts htexts text htext).2 hmem
  rw [readTable, toList_table, List.splitOn_flatMap_concat hlines, List.dropLast_concat,
    List.map_map]
  refine List.map_congr_left fun texts htexts => ?_
  have hlength := length_of_mem_grid htexts
  refine splitOn_squeeze_lineText ?_ ?_ fun text htext => (h texts htexts text htext).1
  · rw [hlength, length_columnWidths_grid]
  · rintro rfl
    cases hlength

/-! ### What the texts say -/

/-- The marks of a state. -/
def isMark (c : Char) : Bool := c == '-' || c == '>' || c == '*'

/-- The text without its marks. -/
def unmark (text : List Char) : List Char := text.filter fun c => !isMark c

/-- No cell holds the text of a rejected edit. -/
def Clean (fa : Automaton) : Prop := ∀ e ∈ fa.cells, e.2.2.rejected = none

instance (fa : Automaton) : Decidable fa.Clean :=
  inferInstanceAs (Decidable (∀ e ∈ fa.cells, e.2.2.rejected = none))

theorem Clean.rejected_eq_none (h : fa.Clean) {d : Cell} (hd : fa.cell? q s = some d) :
    d.rejected = none := by
  obtain ⟨row, hrow, hcell⟩ := cell?_eq_some_iff.1 hd
  exact h _ (mem_cells.2
    ⟨row, List.mem_of_lookup_eq_some hrow, List.mem_of_lookup_eq_some hcell⟩)

/-- A character of a table in which no edit was rejected. -/
def isTableChar (c : Char) : Bool :=
  Symbol.isNonterminal c || Symbol.isTransitionSymbol c || isMark c ||
    ['$', 'δ', ',', ' '].contains c

theorem toList_marker (fa : Automaton) (q : Label) :
    (fa.marker q).toList =
      (if fa.initial = some q then ['-', '>'] else []) ++ if q ∈ fa.finals then ['*'] else [] := by
  simp only [marker, isFinal_iff, String.toList_append]
  congr 1 <;> split <;> rfl

theorem dash_mem_marker : '-' ∈ (fa.marker q).toList ↔ fa.initial = some q := by
  rw [toList_marker, List.mem_append]
  split <;> split <;> simp [*]

theorem star_mem_marker : '*' ∈ (fa.marker q).toList ↔ q ∈ fa.finals := by
  rw [toList_marker, List.mem_append]
  split <;> split <;> simp [*]

theorem isMark_of_mem_marker (hc : c ∈ (fa.marker q).toList) : isMark c = true := by
  rw [toList_marker, List.mem_append] at hc
  split at hc <;> split at hc <;> simp at hc <;> simp [isMark] <;> tauto

theorem isBlank_of_isMark (hc : isMark c = true) : isBlank c = false := by
  simp only [isMark, Bool.or_eq_true, beq_iff_eq] at hc
  rcases hc with (rfl | rfl) | rfl <;> decide

theorem isMark_of_label (hq : q.Valid) (hc : c ∈ q.toList) : isMark c = false := by
  rw [← Bool.not_eq_true]
  intro hmark
  simp only [isMark, Bool.or_eq_true, beq_iff_eq] at hmark
  rcases hmark with (rfl | rfl) | rfl <;> exact hq.notMem (by decide) hc

/-- No blank stands in the text of a state. -/
theorem bare_marker (hq : q.Valid) :
    bare (fa.marker q ++ q) = (fa.marker q).toList ++ q.toList := by
  rw [bare, String.toList_append, squeeze_eq_self]
  intro c hc
  rcases List.mem_append.1 hc with hc | hc
  · exact isBlank_of_isMark (isMark_of_mem_marker hc)
  · exact hq.isBlank_eq_false hc

/-- **The label is what is left of the text of a state without the marks.** -/
theorem unmark_marker (hq : q.Valid) : unmark (bare (fa.marker q ++ q)) = q.toList := by
  have hmarks : unmark (fa.marker q).toList = [] :=
    List.filter_eq_nil_iff.2 fun c hc => by rw [isMark_of_mem_marker hc]; decide
  have hlabel : unmark q.toList = q.toList :=
    List.filter_eq_self.2 fun c hc => by rw [isMark_of_label hq hc, Bool.not_false]
  rw [bare_marker hq, unmark, List.filter_append]
  exact congrArg₂ (· ++ ·) hmarks hlabel

theorem isTableChar_of_label (hq : q.Valid) (hc : c ∈ q.toList) : isTableChar c = true := by
  rw [isTableChar, Symbol.isTransitionSymbol]
  rcases hq.of_mem hc with h | h | rfl
  · simp [h]
  · simp [h]
  · rfl

/-- Labels, commas, blanks and dashes stand in the text of a cell in which no edit was
rejected. -/
theorem isTableChar_of_cell {S : LabelSet} (hS : ∀ l ∈ S, l.Valid)
    (hc : c ∈ (Cell.ofTargets S).text.toList) : isTableChar c = true := by
  by_cases hempty : S.isEmpty = true
  · have htext : (Cell.ofTargets S).text = "-" := if_pos hempty
    rw [htext] at hc
    rw [List.mem_singleton.1 hc]
    rfl
  · have htext : (Cell.ofTargets S).text = ", ".intercalate S.toList := if_neg hempty
    rw [htext, String.toList_intercalate] at hc
    rcases List.mem_of_mem_intercalate hc with hsep | ⟨piece, hpiece, hc⟩
    · have hcomma : c ∈ [',', ' '] := hsep
      rcases List.mem_pair.1 hcomma with rfl | rfl <;> rfl
    · obtain ⟨l, hl, rfl⟩ := List.mem_map.1 hpiece
      exact isTableChar_of_label (hS l hl) hc

/-- The text of a cell in which no edit was rejected is read as its targets, with or without
its blanks. -/
theorem parseTargets_bare {S : LabelSet} (hS : ∀ l ∈ S, l.Valid) :
    Cell.parseTargets (bare (Cell.ofTargets S).text) = some S := by
  rw [← Cell.parseTargets_text hS, Cell.parseTargets, Cell.parseTargets, bare, squeeze,
    List.filter_filter]
  simp only [Bool.and_self]

/-- So there are no two sets of targets with the same text, up to blanks. -/
theorem targets_eq_of_bare_eq {S T : LabelSet} (hS : ∀ l ∈ S, l.Valid) (hT : ∀ l ∈ T, l.Valid)
    (h : bare (Cell.ofTargets S).text = bare (Cell.ofTargets T).text) : S = T := by
  have hread := parseTargets_bare hS
  rw [h, parseTargets_bare hT] at hread
  exact (Option.some.inj hread).symm

/-! ### Equal tables -/

/-- **The same states, symbols, marks and cells**, in the same order.  The order of the
accepting states and the flag are not shown in a table. -/
structure SameTable (fa fb : Automaton) : Prop where
  /-- The same states. -/
  states : fa.states = fb.states
  /-- The same symbols. -/
  alphabet : fa.alphabet = fb.alphabet
  /-- The same initial state. -/
  initial : fa.initial = fb.initial
  /-- The same accepting states. -/
  finals : ∀ q, q ∈ fa.finals ↔ q ∈ fb.finals
  /-- The same cells. -/
  cells : ∀ q s, fa.cell? q s = fb.cell? q s

/-- No more than that is shown in a table. -/
theorem SameTable.table_eq (h : fa.SameTable fb) : fa.table = fb.table := by
  have hheader : fa.header = fb.header := by rw [header, header, h.alphabet]
  have hmarker : ∀ q, fa.marker q = fb.marker q := by
    intro q
    simp only [marker, isFinal_iff, h.initial, h.finals q]
  have hline : fa.line = fb.line := by
    funext q
    rw [line, line, hmarker, h.alphabet]
    simp only [h.cells]
  have hgrid : fa.grid = fb.grid := by rw [grid, grid, hheader, h.states, hline]
  rw [table, table, hgrid]

theorem bare_ofChar (hs : Symbol.isTransitionSymbol s = true) : bare (Label.ofChar s) = [s] := by
  rw [bare, Label.toList_ofChar, squeeze_eq_self]
  intro c hc
  rw [List.mem_singleton.1 hc]
  rcases Symbol.isTransitionSymbol_iff.1 hs with hterminal | rfl
  · exact Symbol.isBlank_of_isTerminal hterminal
  · decide

namespace WellFormed

variable (h : fa.WellFormed) (hnamed : fa.Named)

include h hnamed

/-- The targets of a cell are valid labels. -/
theorem valid_of_cell {d : Cell} (hd : fa.cell? q s = some d) : ∀ l ∈ d.targets, l.Valid :=
  fun l hl => hnamed.label l (h.target_mem (fa.targets_of_cell hd ▸ hl))

/-- Only these characters stand in the texts of a table in which no edit was rejected. -/
theorem isTableChar_of_mem_grid (hclean : fa.Clean) {text : String} (htexts : texts ∈ fa.grid)
    (htext : text ∈ texts) (hc : c ∈ text.toList) : isTableChar c = true := by
  rcases List.mem_cons.1 htexts with rfl | htexts
  · -- the header has the sign of the transitions and the symbols
    rcases List.mem_cons.1 htext with rfl | htext
    · rw [List.mem_singleton.1 hc]
      rfl
    · obtain ⟨s, hs, rfl⟩ := List.mem_map.1 htext
      rw [Label.toList_ofChar, List.mem_singleton] at hc
      rw [isTableChar, hc, hnamed.symbol s hs, Bool.or_true, Bool.true_or, Bool.true_or]
  · -- a line has the marks, the label and the cells of a state
    obtain ⟨q, hq, rfl⟩ := List.mem_map.1 htexts
    rcases List.mem_cons.1 htext with rfl | htext
    · rw [String.toList_append] at hc
      rcases List.mem_append.1 hc with hc | hc
      · rw [isTableChar, isMark_of_mem_marker hc, Bool.or_true, Bool.true_or]
      · exact isTableChar_of_label (hnamed.label q hq) hc
    · obtain ⟨s, hs, rfl⟩ := List.mem_map.1 htext
      obtain ⟨d, hd⟩ := h.exists_cell_iff.2 ⟨hq, hs⟩
      rw [hd] at hc
      obtain ⟨S, rfl⟩ := Cell.exists_eq_ofTargets (hclean.rejected_eq_none hd)
      exact isTableChar_of_cell (h.valid_of_cell hnamed hd) hc

/-- Neither bars nor breaks are among them, so the texts of such a table are read back. -/
theorem readTable_table (hclean : fa.Clean) :
    readTable fa.table.toList = fa.grid.map (List.map bare) := by
  refine Automaton.readTable_table fun texts htexts text htext => ⟨fun hbar => ?_, fun hbreak => ?_⟩
  · exact absurd (h.isTableChar_of_mem_grid hnamed hclean htexts htext hbar) (by decide)
  · exact absurd (h.isTableChar_of_mem_grid hnamed hclean htexts htext hbreak) (by decide)

end WellFormed

/-- The symbols are read off the header. -/
theorem alphabet_eq_of_header (hfa : fa.Named) (hfb : fb.Named)
    (h : fa.header.map bare = fb.header.map bare) : fa.alphabet = fb.alphabet := by
  have hread : ∀ {fc : Automaton}, fc.Named →
      fc.header.map bare = bare "δ" :: fc.alphabet.map fun s => [s] := by
    intro fc hfc
    rw [header, List.map_cons, List.map_map]
    exact congrArg _ (List.map_congr_left fun s hs => bare_ofChar (hfc.symbol s hs))
  rw [hread hfa, hread hfb] at h
  exact List.map_injective_iff.2 List.singleton_injective (List.cons.inj h).2

/-- The states are read off the first texts of the lines. -/
theorem states_eq_of_lines (hfa : fa.Named) (hfb : fb.Named)
    (h : (fa.states.map fa.line).map (List.map bare) =
      (fb.states.map fb.line).map (List.map bare)) : fa.states = fb.states := by
  have hread : ∀ {fc : Automaton}, fc.Named →
      ((fc.states.map fc.line).map (List.map bare)).map (fun texts => unmark (texts.headD [])) =
        fc.states.map String.toList := by
    intro fc hfc
    rw [List.map_map, List.map_map]
    exact List.map_congr_left fun q hq => unmark_marker (hfc.label q hq)
  have hlabels := congrArg (List.map fun texts => unmark (texts.headD [])) h
  rw [hread hfa, hread hfb] at hlabels
  exact List.map_injective_iff.2 (fun _ _ => String.toList_injective) hlabels

/-- The marks of a state are read off the first text of its line. -/
theorem marks_of_line (hq : q.Valid) (h : (fa.line q).map bare = (fb.line q).map bare) :
    (fa.initial = some q ↔ fb.initial = some q) ∧ (q ∈ fa.finals ↔ q ∈ fb.finals) := by
  have hfirst : bare (fa.marker q ++ q) = bare (fb.marker q ++ q) := (List.cons.inj h).1
  rw [bare_marker hq, bare_marker hq] at hfirst
  have hmarker : (fa.marker q).toList = (fb.marker q).toList := List.append_cancel_right hfirst
  rw [← dash_mem_marker, ← dash_mem_marker, ← star_mem_marker, ← star_mem_marker, hmarker]
  exact ⟨.rfl, .rfl⟩

/-- The texts of a line, if the state has a cell for every symbol. -/
theorem map_bare_line (hcells : ∀ s ∈ fa.alphabet, ∃ c, fa.cell? q s = some c) :
    (fa.line q).map bare = bare (fa.marker q ++ q) ::
      fa.alphabet.map fun s => ((fa.cell? q s).map fun c => bare c.text).getD [] := by
  rw [line, List.map_cons, List.map_map]
  refine congrArg _ (List.map_congr_left fun s hs => ?_)
  obtain ⟨c, hc⟩ := hcells s hs
  rw [Function.comp_apply, hc]
  rfl

namespace WellFormed

variable (hfa : fa.WellFormed) (hfb : fb.WellFormed) (hna : fa.Named) (hnb : fb.Named)

include hfa hfb hna hnb

/-- Cells are read off the lines of their states. -/
theorem cell?_eq_of_line (hca : fa.Clean) (hcb : fb.Clean) (hstates : fa.states = fb.states)
    (halphabet : fa.alphabet = fb.alphabet) (hq : q ∈ fa.states) (hs : s ∈ fa.alphabet)
    (hline : (fa.line q).map bare = (fb.line q).map bare) : fa.cell? q s = fb.cell? q s := by
  have hcells : ∀ s ∈ fa.alphabet, ∃ c, fa.cell? q s = some c :=
    fun s hs => hfa.exists_cell_iff.2 ⟨hq, hs⟩
  have hcells' : ∀ s ∈ fb.alphabet, ∃ c, fb.cell? q s = some c :=
    fun s hs => hfb.exists_cell_iff.2 ⟨hstates ▸ hq, hs⟩
  rw [map_bare_line hcells, map_bare_line hcells', ← halphabet] at hline
  have htext := List.map_inj_left.1 (List.cons.inj hline).2 s hs
  obtain ⟨c, hc⟩ := hcells s hs
  obtain ⟨d, hd⟩ := hcells' s (halphabet ▸ hs)
  obtain ⟨S, rfl⟩ := Cell.exists_eq_ofTargets (hca.rejected_eq_none hc)
  obtain ⟨T, rfl⟩ := Cell.exists_eq_ofTargets (hcb.rejected_eq_none hd)
  rw [hc, hd] at htext
  have htargets : S = T :=
    targets_eq_of_bare_eq (hfa.valid_of_cell hna hc) (hfb.valid_of_cell hnb hd) htext
  rw [hc, hd, htargets]

/-- **Equal tables show the same automaton**, unless an edit was rejected. -/
theorem sameTable_of_table_eq (hca : fa.Clean) (hcb : fb.Clean) (h : fa.table = fb.table) :
    fa.SameTable fb := by
  have hgrid : fa.grid.map (List.map bare) = fb.grid.map (List.map bare) := by
    rw [← hfa.readTable_table hna hca, h, hfb.readTable_table hnb hcb]
  rw [grid, grid, List.map_cons, List.map_cons] at hgrid
  obtain ⟨hheader, hlines⟩ := List.cons.inj hgrid
  have halphabet := alphabet_eq_of_header hna hnb hheader
  have hstates := states_eq_of_lines hna hnb hlines
  -- the same states have the same lines
  have hline : ∀ q ∈ fa.states, (fa.line q).map bare = (fb.line q).map bare := by
    rw [← hstates, List.map_map, List.map_map] at hlines
    exact List.map_inj_left.1 hlines
  have hmarks := fun q hq => marks_of_line (hna.label q hq) (hline q hq)
  -- only states are marked
  refine ⟨hstates, halphabet, Option.ext fun q => ⟨fun hq => ?_, fun hq => ?_⟩,
    fun q => ⟨fun hq => ?_, fun hq => ?_⟩, fun q s => ?_⟩
  · exact (hmarks q (hfa.initial_mem hq)).1.1 hq
  · exact (hmarks q (hstates ▸ hfb.initial_mem hq)).1.2 hq
  · exact (hmarks q (hfa.final_mem hq)).2.1 hq
  · exact (hmarks q (hstates ▸ hfb.final_mem hq)).2.2 hq
  · by_cases hcell : q ∈ fa.states ∧ s ∈ fa.alphabet
    · exact hfa.cell?_eq_of_line hfb hna hnb hca hcb hstates halphabet hcell.1 hcell.2
        (hline q hcell.1)
    · rw [hfa.cell?_eq_none hcell, hfb.cell?_eq_none (hstates ▸ halphabet ▸ hcell)]

end WellFormed

end Automaton

end FiniteState
