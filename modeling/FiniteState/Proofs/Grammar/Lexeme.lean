import FiniteState.Proofs.Grammar.Lines
import FiniteState.Proofs.Grammar.Syntax

/-!
# What the reader of a grammar sees

Of a line the reader sees tokens, and characters that belong to no token; blanks between them
it does not see.  It looks for the tokens of a line after it has found out which lines belong
together, and for that it looks at characters: a bar at the front of a line, a bar or an arrow
at the end of the one before.  In a line without blanks at its ends these characters are the
first and the last token.  So it comes to the same to look for the tokens of every line first,
to drop the lines that have none, and to join the rest by their first and last tokens.

## Main definitions

* `Lexeme`, `Lexeme.ofText` — what is seen of a text.
* `Text.Tight` — there is something in the text, and no blank at its ends.
* `Lexeme.continues`, `Lexeme.join`, `Lexeme.passages` — which lines belong together, by what is
  seen of them.

## Main results

* `Lexeme.mapM_read_ofText` — **what is seen decides which tokens are found**.
* `Lexeme.ofText_append` — two texts side by side, unless an arrow comes about between them.
* `Lexeme.continues_ofText` — the first and the last token decide what is joined.
* `Grammar.map_ofText_logicalLines` — **what is seen of the lines that are read**.
-/

namespace FiniteState

/-- What is seen of a text: tokens, and characters that belong to no token. -/
inductive Lexeme
  /-- A token. -/
  | token (t : Token)
  /-- A character that belongs to no token. -/
  | stray (c : Char)
  deriving DecidableEq

/-- There is something in the text, and no blank at its ends. -/
structure Text.Tight (text : List Char) : Prop where
  /-- There is something in it. -/
  ne_nil : text ≠ []
  /-- It does not begin with a blank. -/
  head : ∀ c ∈ text.head?, Text.isBlank c = false
  /-- It does not end in a blank. -/
  last : ∀ c ∈ text.getLast?, Text.isBlank c = false

namespace Lexeme

/-- What is seen of a character that is not blank. -/
def ofChar (c : Char) : Lexeme :=
  match Token.ofChar? c with
  | some t => .token t
  | none => .stray c

/-- What is seen of a text. -/
def ofText : List Char → List Lexeme
  | [] => []
  | '-' :: '>' :: rest => .token .arrow :: ofText rest
  | c :: rest => if Text.isBlank c then ofText rest else ofChar c :: ofText rest

/-- The token that is seen, if it is one. -/
def read : Lexeme → Except GrammarError Token
  | .token t => .ok t
  | .stray c => .error (.unexpectedCharacter c)

variable {c : Char} {text text' : List Char} {previous line : List Lexeme}

/-! ### Tokens -/

theorem mapM_read_cons (l : Lexeme) (ls : List Lexeme) :
    (l :: ls).mapM read = read l >>= fun t => (ls.mapM read).map (t :: ·) := by
  rw [List.mapM_cons]
  rfl

/-- **What is seen decides which tokens are found**, and which character is reported if one
belongs to none. -/
theorem mapM_read_ofText (text : List Char) : (ofText text).mapM read = Token.ofText text := by
  fun_induction ofText text with
  | case1 => rfl
  | case2 rest ih =>
    rw [mapM_read_cons, ih, Token.ofText]
    rfl
  | case3 c rest hdash hblank ih => rw [Token.ofText_blank hblank, ih]
  | case4 c rest hdash hblank ih =>
    rw [mapM_read_cons, ih, Token.ofText.eq_3 _ _ hdash, ofChar]
    cases Token.ofChar? c with
    | some t => rfl
    | none => exact (if_neg hblank).symm

/-! ### Texts side by side -/

theorem ofText_cons (h : ¬ (c = '-' ∧ text.head? = some '>')) :
    ofText (c :: text) = if Text.isBlank c then ofText text else ofChar c :: ofText text := by
  refine ofText.eq_3 _ _ fun rest hc hrest => h ⟨hc, ?_⟩
  rw [hrest]
  rfl

theorem ofText_blank (hc : Text.isBlank c = true) (text : List Char) :
    ofText (c :: text) = ofText text := by
  rw [ofText_cons, if_pos hc]
  rintro ⟨rfl, -⟩
  cases hc

/-- **Two texts side by side**, unless an arrow comes about between them. -/
theorem ofText_append (h : ¬ (text.getLast? = some '-' ∧ text'.head? = some '>')) :
    ofText (text ++ text') = ofText text ++ ofText text' := by
  -- nor does an arrow come about after a part of the first text
  have hrest : ∀ (front : List Char) {rest : List Char},
      ¬ ((front ++ rest).getLast? = some '-' ∧ text'.head? = some '>') →
        ¬ (rest.getLast? = some '-' ∧ text'.head? = some '>') := by
    rintro front rest happart ⟨hlast, hhead⟩
    rw [List.getLast?_append, hlast, Option.some_or] at happart
    exact happart ⟨rfl, hhead⟩
  fun_induction ofText text with
  | case1 => rfl
  | case2 rest ih =>
    show Lexeme.token .arrow :: ofText (rest ++ text') = _
    rw [ih (hrest ['-', '>'] h), List.cons_append]
  | case3 c rest hdash hblank ih =>
    rw [List.cons_append, ofText_blank hblank, ih (hrest [c] h)]
  | case4 c rest hdash hblank ih =>
    have hapart : ¬ (c = '-' ∧ (rest ++ text').head? = some '>') := by
      rintro ⟨rfl, hhead⟩
      cases rest with
      | nil => exact h ⟨rfl, hhead⟩
      | cons d rest => exact hdash rest rfl (congrArg (· :: rest) (Option.some.inj hhead))
    rw [List.cons_append, ofText_cons hapart, if_neg hblank, ih (hrest [c] h),
      List.cons_append]

/-- A blank keeps two texts apart. -/
theorem ofText_append_cons_blank (hc : Text.isBlank c = true) (text text' : List Char) :
    ofText (text ++ c :: text') = ofText text ++ ofText text' := by
  rw [ofText_append, ofText_blank hc]
  rintro ⟨-, hhead⟩
  cases hhead
  cases hc

theorem ofText_eq_nil (h : ∀ c ∈ text, Text.isBlank c = true) : ofText text = [] := by
  induction text with
  | nil => rfl
  | cons c text ih =>
    rw [ofText_blank (h c List.mem_cons_self), ih fun d hd => h d (List.mem_cons_of_mem c hd)]

theorem ofText_blanks_append {front : List Char} (h : ∀ c ∈ front, Text.isBlank c = true) :
    ofText (front ++ text) = ofText text := by
  induction front with
  | nil => rfl
  | cons c front ih =>
    rw [List.cons_append, ofText_blank (h c List.mem_cons_self),
      ih fun d hd => h d (List.mem_cons_of_mem c hd)]

theorem ofText_append_blanks {back : List Char} (h : ∀ c ∈ back, Text.isBlank c = true) :
    ofText (text ++ back) = ofText text := by
  cases back with
  | nil => rw [List.append_nil]
  | cons c back =>
    rw [ofText_append_cons_blank (h c List.mem_cons_self),
      ofText_eq_nil fun d hd => h d (List.mem_cons_of_mem c hd), List.append_nil]

/-- **Nothing that is seen is lost by trimming.** -/
theorem ofText_trim (text : List Char) : ofText (Text.trim text) = ofText text := by
  obtain ⟨front, back, htext, hfront, hback⟩ := Text.exists_trim_append text
  have hsame := congrArg ofText htext
  rw [ofText_blanks_append hfront, ofText_append_blanks hback] at hsame
  exact hsame.symm

/-! ### The first and the last token -/

theorem ofChar_eq_bar_iff : ofChar c = .token .bar ↔ c = '|' := by
  constructor
  · intro h
    unfold ofChar at h
    split at h
    · rename_i t ht
      cases h
      have hdisplay := Token.toList_display_of_ofChar? ht
      exact (List.singleton_inj.1 hdisplay).symm
    · cases h
  · rintro rfl
    rfl

theorem ofChar_ne_arrow : ofChar c ≠ .token .arrow := by
  intro h
  unfold ofChar at h
  split at h
  · rename_i t ht
    cases h
    have hdisplay := Token.toList_display_of_ofChar? ht
    cases hdisplay
  · cases h

/-- What is seen at the end of a line is an arrow or a character. -/
theorem exists_ofText_eq_append (h : Text.Tight text) :
    (∃ front, text = front ++ ['-', '>'] ∧ ofText text = ofText front ++ [.token .arrow]) ∨
      ∃ front c, text = front ++ [c] ∧ ¬ ['-', '>'] <:+ text ∧
        ofText text = ofText front ++ [ofChar c] := by
  by_cases harrow : ['-', '>'] <:+ text
  · obtain ⟨front, rfl⟩ := harrow
    refine .inl ⟨front, rfl, ofText_append ?_⟩
    rintro ⟨-, hhead⟩
    cases hhead
  · obtain ⟨front, c, rfl⟩ := (List.eq_nil_or_concat' text).resolve_left h.ne_nil
    refine .inr ⟨front, c, rfl, harrow, ?_⟩
    have hblank : Text.isBlank c = false := h.last c List.getLast?_concat
    have hlast : ofText [c] = [ofChar c] := by
      rw [ofText_cons (by simp), hblank, if_neg Bool.false_ne_true]
      rfl
    rw [ofText_append, hlast]
    rintro ⟨hdash, hhead⟩
    obtain ⟨front, rfl⟩ := List.getLast?_eq_some_iff.1 hdash
    cases hhead
    exact harrow ⟨front, List.append_cons front '-' ['>']⟩

theorem ofText_ne_nil (h : Text.Tight text) : ofText text ≠ [] := by
  rcases exists_ofText_eq_append h with ⟨front, -, heq⟩ | ⟨front, c, -, -, heq⟩
  · rw [heq]
    exact List.append_ne_nil_of_right_ne_nil _ (List.cons_ne_nil _ _)
  · rw [heq]
    exact List.append_ne_nil_of_right_ne_nil _ (List.cons_ne_nil _ _)

theorem head?_ofText_eq_bar_iff (h : Text.Tight text) :
    (ofText text).head? = some (.token .bar) ↔ text.head? = some '|' := by
  fun_cases ofText text with
  | case1 => exact absurd rfl h.ne_nil
  | case2 rest => simp
  | case3 c rest hdash hblank =>
    rw [h.head c rfl] at hblank
    cases hblank
  | case4 c rest hdash hblank =>
    rw [List.head?_cons, List.head?_cons, Option.some_inj, Option.some_inj, ofChar_eq_bar_iff]

theorem getLast?_ofText_eq_bar_iff (h : Text.Tight text) :
    (ofText text).getLast? = some (.token .bar) ↔ text.getLast? = some '|' := by
  rcases exists_ofText_eq_append h with ⟨front, htext, heq⟩ | ⟨front, c, htext, -, heq⟩
  · rw [heq, htext, List.getLast?_concat, List.append_cons, List.getLast?_concat]
    simp
  · rw [heq, htext, List.getLast?_concat, List.getLast?_concat, Option.some_inj, Option.some_inj,
      ofChar_eq_bar_iff]

theorem getLast?_ofText_eq_arrow_iff (h : Text.Tight text) :
    (ofText text).getLast? = some (.token .arrow) ↔ ['-', '>'] <:+ text := by
  rcases exists_ofText_eq_append h with ⟨front, htext, heq⟩ | ⟨front, c, -, harrow, heq⟩
  · rw [heq, List.getLast?_concat]
    exact iff_of_true rfl ⟨front, htext.symm⟩
  · rw [heq, List.getLast?_concat]
    exact iff_of_false (fun hc => ofChar_ne_arrow (Option.some.inj hc)) harrow

/-! ### Lines that belong together -/

/-- What is seen of a line continues what is seen of the one before. -/
def continues (previous line : List Lexeme) : Bool :=
  line.head? == some (.token .bar) || previous.getLast? == some (.token .bar) ||
    previous.getLast? == some (.token .arrow)

/-- **The first and the last token decide whether a line continues another one.** -/
theorem continues_ofText (h : Text.Tight text) (h' : Text.Tight text') :
    continues (ofText text) (ofText text') = Grammar.continues text text' := by
  rw [Bool.eq_iff_iff]
  simp only [continues, Grammar.continues, Bool.or_eq_true, beq_iff_eq,
    List.isSuffixOf_iff_suffix, head?_ofText_eq_bar_iff h', getLast?_ofText_eq_bar_iff h,
    getLast?_ofText_eq_arrow_iff h]

/-- Joins what is seen of lines that continue one another.  The first argument is what is being
joined. -/
def join : List Lexeme → List (List Lexeme) → List (List Lexeme)
  | current, [] => [current]
  | previous, line :: rest =>
    if continues previous line then join (previous ++ line) rest else previous :: join line rest

/-- Joins what is seen of lines, of which those where nothing is seen are dropped. -/
def passages (lines : List (List Lexeme)) : List (List Lexeme) :=
  match lines.filter fun line => !line.isEmpty with
  | [] => []
  | first :: rest => join first rest

end Lexeme

/-! ### The lines that are read -/

namespace Grammar

variable {text text' : List Char} {line : ℕ × List Char}

theorem tight_trim (h : Text.trim text ≠ []) : Text.Tight (Text.trim text) :=
  ⟨h, fun _ => Text.isBlank_of_mem_head?_trim, fun _ => Text.isBlank_of_mem_getLast?_trim⟩

theorem tight_of_mem_physicalLines (h : line ∈ physicalLines text) : Text.Tight line.2 := by
  have hmem : line.2 ∈ ((text.splitOn '\n').map Text.trim).filter fun line => !line.isEmpty := by
    rw [← map_snd_physicalLines]
    exact List.mem_map_of_mem h
  obtain ⟨original, -, htrim⟩ := List.mem_map.1 (List.mem_of_mem_filter hmem)
  have hne := ne_nil_of_mem_physicalLines h
  rw [← htrim] at hne ⊢
  exact tight_trim hne

/-- Something is seen of a text if trimming leaves something of it. -/
theorem isEmpty_ofText (text : List Char) :
    (Lexeme.ofText text).isEmpty = (Text.trim text).isEmpty := by
  rw [← Lexeme.ofText_trim]
  by_cases hempty : Text.trim text = []
  · rw [hempty]
    rfl
  · rw [List.isEmpty_eq_false_iff.2 hempty,
      List.isEmpty_eq_false_iff.2 (Lexeme.ofText_ne_nil (tight_trim hempty))]

/-- Two lines with a blank between them have no blank at their ends. -/
theorem tight_append (h : Text.Tight text) (h' : Text.Tight text') :
    Text.Tight (text ++ ' ' :: text') where
  ne_nil := List.append_ne_nil_of_left_ne_nil h.ne_nil _
  head c hc := h.head c (by rwa [List.head?_append_of_ne_nil _ h.ne_nil] at hc)
  last c hc := h'.last c (by
    rwa [List.append_cons, List.getLast?_append_of_ne_nil _ h'.ne_nil] at hc)

/-- Joining lines is joining what is seen of them.  The induction is on the lines that follow;
what has been joined stays without blanks at its ends. -/
theorem map_ofText_joinLines {current : ℕ × List Char} {rest : List (ℕ × List Char)}
    (h : ∀ line ∈ current :: rest, Text.Tight line.2) :
    (joinLines current rest).map (fun line => Lexeme.ofText line.2) =
      Lexeme.join (Lexeme.ofText current.2) (rest.map fun line => Lexeme.ofText line.2) := by
  induction rest generalizing current with
  | nil => rfl
  | cons line rest ih =>
    have hcurrent := h current List.mem_cons_self
    have hrest : ∀ line' ∈ line :: rest, Text.Tight line'.2 :=
      fun line' hline' => h line' (List.mem_cons_of_mem current hline')
    have hline := hrest line List.mem_cons_self
    rw [joinLines_cons, List.map_cons, Lexeme.join, Lexeme.continues_ofText hcurrent hline]
    split
    · rw [ih, Lexeme.ofText_append_cons_blank (by decide)]
      intro line' hline'
      rcases List.mem_cons.1 hline' with rfl | hline'
      · exact tight_append hcurrent hline
      · exact hrest line' (List.mem_cons_of_mem line hline')
    · rw [List.map_cons, ih hrest]

/-- What is seen of the lines that are not blank is what is seen of all lines, where anything
is. -/
theorem map_ofText_physicalLines (text : List Char) :
    (physicalLines text).map (fun line => Lexeme.ofText line.2) =
      ((text.splitOn '\n').map Lexeme.ofText).filter fun line => !line.isEmpty := by
  have hkept : (fun line : List Char => !(Lexeme.ofText line).isEmpty) =
      fun line => !(Text.trim line).isEmpty := funext fun line => by rw [isEmpty_ofText]
  calc (physicalLines text).map (fun line => Lexeme.ofText line.2)
      = ((physicalLines text).map Prod.snd).map Lexeme.ofText := List.map_map.symm
    _ = (((text.splitOn '\n').filter fun line => !(Text.trim line).isEmpty).map Text.trim).map
          Lexeme.ofText := by rw [map_snd_physicalLines, List.filter_map]; rfl
    _ = ((text.splitOn '\n').filter fun line => !(Text.trim line).isEmpty).map Lexeme.ofText := by
          rw [List.map_map]
          exact List.map_congr_left fun line _ => Lexeme.ofText_trim line
    _ = ((text.splitOn '\n').map Lexeme.ofText).filter fun line => !line.isEmpty := by
          rw [← hkept, List.filter_map]
          rfl

/-- **What is seen of the lines that are read.** -/
theorem map_ofText_logicalLines (text : List Char) :
    (logicalLines text).map (fun line => Lexeme.ofText line.2) =
      Lexeme.passages ((text.splitOn '\n').map Lexeme.ofText) := by
  have htight : ∀ line ∈ physicalLines text, Text.Tight line.2 := fun _ h =>
    tight_of_mem_physicalLines h
  rw [logicalLines, Lexeme.passages, ← map_ofText_physicalLines]
  cases hphysical : physicalLines text with
  | nil => rfl
  | cons first rest =>
    rw [hphysical] at htight
    exact map_ofText_joinLines htight

end Grammar

end FiniteState
