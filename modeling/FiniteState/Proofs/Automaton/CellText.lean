import FiniteState.Proofs.Automaton.Changed
import FiniteState.Proofs.Text

/-!
# The text of a cell can be edited back

An editor shows the targets of a cell as a text and reads a text back as targets.  The text
that is shown has one form, commas with a blank after each and a dash for no targets, while
the text that is read may be written more freely.  What is shown is read as the targets that
it shows, because a label has neither commas nor dashes nor blanks in it; so this rests on
every construction and every renaming giving valid labels.

An edit of a cell to its own text then takes the flag away and does nothing else.  After any
edit that succeeds the same holds of the text that the cell shows now, and blanks in the text
of the edit do not matter.

## Main definitions

* `Text.Padded` — a text with blanks put in anywhere.

## Main results

* `Cell.parseTargets_text` — **the text that is shown for some targets is read as these**.
* `Text.Padded.parseTargets_eq` — blanks do not matter.
* `Automaton.Obtainable.updateTransition_text` — **texts of cells survive the editor**.
-/

namespace FiniteState

/-! ### Blanks in a text -/

namespace Text

/-- The second text is the first one with blanks put in anywhere. -/
inductive Padded : List Char → List Char → Prop
  /-- Nothing is left to be copied. -/
  | nil : Padded [] []
  /-- A blank is put in here. -/
  | blank {c : Char} {l l' : List Char} : isBlank c = true → Padded l l' → Padded l (c :: l')
  /-- A character is copied. -/
  | keep (c : Char) {l l' : List Char} : Padded l l' → Padded (c :: l) (c :: l')

variable {l l' : List Char}

theorem Padded.filter_eq (h : Padded l l') :
    l'.filter (fun c => !isBlank c) = l.filter fun c => !isBlank c := by
  induction h with
  | nil => rfl
  | blank hc _ ih => rw [List.filter_cons_of_neg (by simp [hc]), ih]
  | keep c _ ih => rw [List.filter_cons, List.filter_cons, ih]

/-- **Blanks in the text of a cell do not matter.** -/
theorem Padded.parseTargets_eq (h : Padded l l') : Cell.parseTargets l' = Cell.parseTargets l := by
  rw [Cell.parseTargets, h.filter_eq]
  rfl

end Text

/-! ### Showing targets and reading them -/

namespace Label.Valid

variable {l : Label} {c : Char}

theorem toList_ne_nil (h : l.Valid) : l.toList ≠ [] := by
  obtain ⟨c, rest, htext, -⟩ := h
  rw [htext]
  exact List.cons_ne_nil c rest

theorem of_mem (h : l.Valid) (hc : c ∈ l.toList) :
    Symbol.isNonterminal c = true ∨ Symbol.isTerminal c = true ∨ c = '$' := by
  obtain ⟨first, rest, htext, hfirst, hrest⟩ := h
  rw [htext, List.mem_cons] at hc
  rcases hc with rfl | hc
  · exact hfirst.imp_right .inr
  · refine (hrest c hc).imp_right (Or.imp_left fun hdigit => ?_)
    rw [Symbol.isTerminal, hdigit, Bool.or_true]

/-- No blank stands in a label. -/
theorem isBlank_eq_false (h : l.Valid) (hc : c ∈ l.toList) : Text.isBlank c = false := by
  rcases h.of_mem hc with hupper | hterminal | rfl
  · exact Symbol.isBlank_of_isNonterminal hupper
  · exact Symbol.isBlank_of_isTerminal hterminal
  · decide

/-- No other character stands in a label, in particular no comma and no dash. -/
theorem notMem (h : l.Valid)
    (hc : ¬ (Symbol.isNonterminal c = true ∨ Symbol.isTerminal c = true ∨ c = '$')) :
    c ∉ l.toList := fun hmem => hc (h.of_mem hmem)

end Label.Valid

theorem LabelSet.ofList_toList (S : LabelSet) : ofList S.toList = S := ext fun _ => mem_ofList

namespace Cell

variable {labels : List Label} {S : LabelSet}

/-- Valid labels are all segments of a list of targets, and none of them is passed over. -/
theorem targetsOfSegments_of_valid (h : ∀ l ∈ labels, l.Valid) :
    targetsOfSegments (labels.map String.toList) = some (.ofList labels) := by
  have hne : ∀ segment ∈ labels.map String.toList, segment.isEmpty = false := by
    intro segment hsegment
    obtain ⟨l, hl, rfl⟩ := List.mem_map.1 hsegment
    exact List.isEmpty_eq_false_iff.2 (h l hl).toList_ne_nil
  have hends : ¬ ((labels.map String.toList).head?.any (·.isEmpty) ||
      (labels.map String.toList).getLast?.any (·.isEmpty)) = true := by
    rw [Bool.or_eq_true, Option.any_eq_true, Option.any_eq_true]
    rintro (⟨segment, hsegment, hempty⟩ | ⟨segment, hsegment, hempty⟩)
    · rw [hne segment (List.mem_of_mem_head? hsegment)] at hempty
      cases hempty
    · rw [hne segment (List.mem_of_getLast? hsegment)] at hempty
      cases hempty
  have hnamed : (labels.map String.toList).filter (fun segment => !segment.isEmpty) =
      labels.map String.toList :=
    List.filter_eq_self.2 fun segment hsegment => by rw [hne segment hsegment, Bool.not_false]
  have hall : (labels.map String.toList).all Label.isValidText = true := by
    rw [List.all_eq_true]
    intro segment hsegment
    obtain ⟨l, hl, rfl⟩ := List.mem_map.1 hsegment
    exact Label.isValid_iff.2 (h l hl)
  have hback : (labels.map String.toList).map String.ofList = labels := by
    rw [List.map_map]
    exact (List.map_congr_left fun l _ => String.ofList_toList).trans (List.map_id labels)
  rw [targetsOfSegments, if_neg hends, hnamed, if_pos hall, hback]

/-- A cell where no edit was rejected is determined by its targets. -/
theorem exists_eq_ofTargets {c : Cell} (h : c.rejected = none) : ∃ targets, c = ofTargets targets :=
  ⟨c.targets, congrArg (Cell.mk c.targets) h⟩

/-- The text that is shown for some targets, without its blanks. -/
theorem filter_text (hS : ∀ l ∈ S, l.Valid) (hne : S.isEmpty = false) :
    (ofTargets S).text.toList.filter (fun c => !Text.isBlank c) =
      [','].intercalate (S.toList.map String.toList) := by
  have htext : (ofTargets S).text = ", ".intercalate S.toList :=
    if_neg (by rw [isEmpty, ofTargets, hne]; exact Bool.false_ne_true)
  have hkept : (S.toList.map String.toList).map (List.filter fun c => !Text.isBlank c) =
      S.toList.map String.toList := by
    rw [List.map_map]
    refine List.map_congr_left fun l hl => List.filter_eq_self.2 fun c hc => ?_
    rw [(hS l hl).isBlank_eq_false hc, Bool.not_false]
  rw [htext, String.toList_intercalate, List.filter_intercalate, hkept]
  rfl

theorem dropDash_of_notMem {text : List Char} (h : '-' ∉ text) : dropDash text = text := by
  unfold dropDash
  split
  · exact absurd List.mem_cons_self h
  · rfl

/-- **The text that is shown for some targets is read as these.** -/
theorem parseTargets_text (hS : ∀ l ∈ S, l.Valid) :
    parseTargets (ofTargets S).text.toList = some S := by
  cases hempty : S.isEmpty with
  | true =>
    obtain rfl := LabelSet.isEmpty_iff.1 hempty
    rfl
  | false =>
    have hvalid : ∀ segment ∈ S.toList.map String.toList, segment ≠ [] ∧ ',' ∉ segment ∧
        '-' ∉ segment := by
      intro segment hsegment
      obtain ⟨l, hl, rfl⟩ := List.mem_map.1 hsegment
      exact ⟨(hS l hl).toList_ne_nil, (hS l hl).notMem (by decide), (hS l hl).notMem (by decide)⟩
    have hdash : '-' ∉ [','].intercalate (S.toList.map String.toList) := by
      intro hmem
      rcases List.mem_of_mem_intercalate hmem with hcomma | ⟨segment, hsegment, hdash⟩
      · revert hcomma
        decide
      · exact (hvalid segment hsegment).2.2 hdash
    have hsplit : ([','].intercalate (S.toList.map String.toList)).splitOn ',' =
        S.toList.map String.toList := by
      refine List.splitOn_intercalate ',' (fun segment h => (hvalid segment h).2.1) fun h => ?_
      exact List.isEmpty_eq_false_iff.1 hempty (List.map_eq_nil_iff.1 h)
    have hne : ¬ ([','].intercalate (S.toList.map String.toList)).isEmpty = true := by
      -- the text without characters is split into one segment, which is no label
      intro hnil
      rw [List.isEmpty_iff.1 hnil, List.splitOn_nil] at hsplit
      exact (hvalid [] (hsplit ▸ List.mem_singleton_self [])).1 rfl
    rw [parseTargets, filter_text hS hempty, dropDash_of_notMem hdash]
    show (if _ then _ else _) = _
    rw [if_neg hne, hsplit, targetsOfSegments_of_valid hS, LabelSet.ofList_toList]

end Cell

/-! ### Edits -/

namespace Automaton

variable {fa : Automaton} {q : Label} {s : Symbol} {raw : String} {targets : LabelSet}

/-- An edit whose text is a list of targets succeeds. -/
theorem updateTransition_of_parseTargets (hq : q ∈ fa.states) (hs : s ∈ fa.alphabet)
    (hparse : Cell.parseTargets raw.toList = some targets) :
    fa.updateTransition q s raw = ⟨.ok true, fa.setTargets q s targets⟩ := by
  unfold updateTransition
  rw [fa.hasState_iff.2 hq, fa.hasSymbol_iff.2 hs, hparse]
  rfl

namespace WellFormed

variable (h : fa.WellFormed)

include h

/-- A cell where no edit was rejected shows a text that is read as its targets. -/
theorem updateTransition_text_of_cell (hnamed : fa.Named)
    (hc : fa.cell? q s = some (.ofTargets targets)) :
    Cell.parseTargets (Cell.ofTargets targets).text.toList = some targets ∧
      fa.updateTransition q s (Cell.ofTargets targets).text =
        ⟨.ok true, fa.withDeterminized false⟩ := by
  have htargets : fa.targets q s = targets := fa.targets_of_cell hc
  have hvalid : ∀ l ∈ targets, l.Valid := fun l hl => hnamed.label l (h.target_mem (htargets ▸ hl))
  have hparse := Cell.parseTargets_text hvalid
  obtain ⟨hq, hs⟩ := h.exists_cell_iff.1 ⟨_, hc⟩
  refine ⟨hparse, ?_⟩
  rw [updateTransition_of_parseTargets hq hs hparse, h.setTargets_of_cell hc]

end WellFormed

/-- **The texts of cells survive the editor.**  An edit of a cell to the text that it shows
succeeds and only takes the flag away, unless the text is there because an edit was rejected.
After an edit that succeeds, whatever its text was, the cell shows a text that is read as the
same targets, and an edit to that text does nothing more.  Blanks in the text of an edit do not
matter to one that succeeds, with them or without them. -/
theorem Obtainable.updateTransition_text (h : fa.Obtainable) (q : Label) (s : Symbol) :
    (∀ c, fa.cell? q s = some c → c.rejected = none →
        fa.apply (.updateTransition q s c.text) = ⟨.ok true, fa.withDeterminized false⟩) ∧
      (∀ raw changed, (fa.apply (.updateTransition q s raw)).report = .ok changed →
        ∃ d, (fa.apply (.updateTransition q s raw)).automaton.cell? q s = some d ∧
          d.rejected = none ∧
          Cell.parseTargets raw.toList = some d.targets ∧
          Cell.parseTargets d.text.toList = some d.targets ∧
          (fa.apply (.updateTransition q s raw)).automaton.apply (.updateTransition q s d.text) =
            ⟨.ok true, (fa.apply (.updateTransition q s raw)).automaton⟩) ∧
      ∀ raw raw' changed, Text.Padded raw.toList raw'.toList →
        (fa.apply (.updateTransition q s raw)).report = .ok changed ∨
          (fa.apply (.updateTransition q s raw')).report = .ok changed →
        fa.apply (.updateTransition q s raw') = fa.apply (.updateTransition q s raw) := by
  refine ⟨fun c hc hkept => ?_, ?_, ?_⟩
  · obtain ⟨targets, rfl⟩ := Cell.exists_eq_ofTargets hkept
    exact (h.wellFormed.updateTransition_text_of_cell h.named hc).2
  · intro raw changed hok
    have hafter := h.edit (.updateTransition q s raw) rfl
    obtain ⟨hq, hs, -, targets, hparse, hfb⟩ := updateTransition_eq_ok hok
    replace hfb : (fa.apply (.updateTransition q s raw)).automaton = fa.setTargets q s targets :=
      hfb
    rw [hfb] at hafter ⊢
    have hcell := h.wellFormed.cell?_setTargets hq hs targets
    obtain ⟨hback, htext⟩ := hafter.wellFormed.updateTransition_text_of_cell hafter.named hcell
    exact ⟨_, hcell, rfl, hparse, hback, htext⟩
  · intro raw raw' changed hpadded hok
    obtain ⟨hq, hs, targets, hparse⟩ : q ∈ fa.states ∧ s ∈ fa.alphabet ∧ ∃ targets,
        Cell.parseTargets raw.toList = some targets := by
      rcases hok with hok | hok
      · obtain ⟨hq, hs, -, targets, hparse, -⟩ := updateTransition_eq_ok hok
        exact ⟨hq, hs, targets, hparse⟩
      · obtain ⟨hq, hs, -, targets, hparse, -⟩ := updateTransition_eq_ok hok
        exact ⟨hq, hs, targets, hpadded.parseTargets_eq ▸ hparse⟩
    show fa.updateTransition q s raw' = fa.updateTransition q s raw
    rw [updateTransition_of_parseTargets hq hs hparse,
      updateTransition_of_parseTargets hq hs (hpadded.parseTargets_eq.trans hparse)]

/-- The start state of `S -> aS | a` moves to the end and to itself on `a`, which its cell shows
as `$, S`, and the edit to that text succeeds.  An edit to targets among dashes and commas is as
good with a blank inside a label. -/
theorem updateTransition_text_freely_written :
    (∃ c, (ofDraft (.ofText "S -> aS | a")).cell? "S" 'a' = some c ∧ c.text = "$, S") ∧
      (ofDraft (.ofText "S -> aS | a")).apply (.updateTransition "S" 'a' "$, S") =
        ⟨.ok true, (ofDraft (.ofText "S -> aS | a")).withDeterminized false⟩ ∧
      (∃ d, ((ofDraft (.ofText "S -> aS | a")).apply
          (.updateTransition "S" 'a' "-B1,,A")).automaton.cell? "S" 'a' = some d ∧
        Cell.parseTargets d.text.toList = some (.ofList ["A", "B1"])) ∧
      (ofDraft (.ofText "S -> aS | a")).apply (.updateTransition "S" 'a' "- B 1,,A") =
        (ofDraft (.ofText "S -> aS | a")).apply (.updateTransition "S" 'a' "-B1,,A") := by
  have hcell : (ofDraft (.ofText "S -> aS | a")).cell? "S" 'a' =
      some (.ofTargets (.ofList ["S", "$"])) := by decide +kernel
  have hok : ((ofDraft (.ofText "S -> aS | a")).apply
      (.updateTransition "S" 'a' "-B1,,A")).report = .ok true := by decide +kernel
  obtain ⟨htext, hraw, hblanks⟩ := (Obtainable.ofText "S -> aS | a").updateTransition_text "S" 'a'
  refine ⟨⟨_, hcell, by decide +kernel⟩, htext _ hcell rfl, ?_, ?_⟩
  · obtain ⟨d, hd, -, hparse, hback, -⟩ := hraw "-B1,,A" true hok
    refine ⟨d, hd, hback.trans (hparse.symm.trans ?_)⟩
    decide +kernel
  · refine hblanks "-B1,,A" "- B 1,,A" true ?_ (.inl hok)
    exact .keep '-' <| .blank rfl <| .keep 'B' <| .blank rfl <| .keep '1' <| .keep ',' <|
      .keep ',' <| .keep 'A' .nil

end Automaton

end FiniteState
