import FiniteState.Proofs.Regex.Parser
import FiniteState.Proofs.Text

/-!
# Which texts are regular expressions

The grammar of regular expressions has five kinds of phrases:

    alternatives ::= sequence | alternatives '|' sequence
    sequence     ::= nothing | pieces
    pieces       ::= piece | pieces piece
    piece        ::= atom | atom '*'
    atom         ::= terminal | '(' alternatives ')'

The reader does not follow this grammar by recursion.  It keeps a frame for each open
parenthesis, so the two are compared by what a phrase does to the innermost frame: an
atom is pushed, a piece joins the pieces, and alternatives fill a blank frame.  For
the other direction, a frame stands for the phrases that it was filled with.  Every
character keeps this so, and what is left at the end was derived.

As the reader is a function, a text has at most one expression.

## Main definitions

* `Regex.Phrase` — the kinds of phrases.
* `Regex.Derives` — **the text is a phrase for the expression**.
* `Regex.Expr.render` — an expression with parentheses around all operands.
* `Regex.Phrase.Effect` — what reading a phrase does to a frame.
* `Regex.Frame.HasRead`, `Regex.ParseState.HasRead` — what has been read.

## Main results

* `Regex.Derives.effect` — **reading a phrase has its effect**.
* `Regex.hasRead_readChar`, `Regex.hasRead_foldlM` — **what has been read was derived**.
* `Regex.parse_eq_ok_iff` — a text is read if it is derived, blanks apart.
* `Regex.letters_parse` — the letters of an expression are the terminals of its text.
* `Regex.Derives.unique` — a text has at most one expression.
* `Regex.derives_render` — an expression is derived by its rendering.
* `Regex.parse_exact_onto` — all of this together.
-/

namespace FiniteState.Regex

/-! ### Phrases -/

/-- The kinds of phrases. -/
inductive Phrase
  /-- Sequences with bars between them. -/
  | alternatives
  /-- Pieces, or nothing. -/
  | sequence
  /-- Pieces, at least one. -/
  | pieces
  /-- An atom, with a star behind it or without. -/
  | piece
  /-- A terminal, or alternatives in parentheses. -/
  | atom
  deriving DecidableEq, Repr

/-- **The text is a phrase for the expression.**  Alternatives and pieces group to the
left. -/
inductive Derives : Phrase → List Char → Expr Symbol → Prop
  | sequence {u : List Char} {e : Expr Symbol} :
    Derives .sequence u e → Derives .alternatives u e
  | bar {u v : List Char} {e e' : Expr Symbol} :
    Derives .alternatives u e → Derives .sequence v e' →
      Derives .alternatives (u ++ '|' :: v) (.alternation e e')
  | nothing : Derives .sequence [] .empty
  | pieces {u : List Char} {e : Expr Symbol} : Derives .pieces u e → Derives .sequence u e
  | piece {u : List Char} {e : Expr Symbol} : Derives .piece u e → Derives .pieces u e
  | append {u v : List Char} {e e' : Expr Symbol} :
    Derives .pieces u e → Derives .piece v e' →
      Derives .pieces (u ++ v) (.concatenation e e')
  | atom {u : List Char} {e : Expr Symbol} : Derives .atom u e → Derives .piece u e
  | star {u : List Char} {e : Expr Symbol} :
    Derives .atom u e → Derives .piece (u ++ ['*']) (.star e)
  | terminal {c : Char} : Symbol.isTerminal c = true → Derives .atom [c] (.letter c)
  | group {u : List Char} {e : Expr Symbol} :
    Derives .alternatives u e → Derives .atom ('(' :: (u ++ [')'])) e

variable {phrase : Phrase} {text u v w : List Char} {e e' : Expr Symbol} {f f' f'' : Frame}
  {c : Char} {state state' : ParseState}

/-- A phrase is made of terminals and operators. -/
theorem Derives.terminal_or_operator (h : Derives phrase u e) (hc : c ∈ u) :
    Symbol.isTerminal c = true ∨ c ∈ ['(', ')', '*', '|'] := by
  induction h with
  | sequence _ ih | pieces _ ih | piece _ ih | atom _ ih => exact ih hc
  | bar _ _ ih ih' =>
    rcases List.mem_append.1 hc with hc | hc
    · exact ih hc
    · rcases List.mem_cons.1 hc with rfl | hc
      · exact .inr (by decide)
      · exact ih' hc
  | nothing => exact absurd hc List.not_mem_nil
  | append _ _ ih ih' =>
    rcases List.mem_append.1 hc with hc | hc
    · exact ih hc
    · exact ih' hc
  | star _ ih =>
    rcases List.mem_append.1 hc with hc | hc
    · exact ih hc
    · rw [List.mem_singleton.1 hc]
      exact .inr (by decide)
  | terminal hterminal =>
    rw [List.mem_singleton.1 hc]
    exact .inl hterminal
  | group _ ih =>
    rcases List.mem_cons.1 hc with rfl | hc
    · exact .inr (by decide)
    · rcases List.mem_append.1 hc with hc | hc
      · exact ih hc
      · rw [List.mem_singleton.1 hc]
        exact .inr (by decide)

/-- Every character of a phrase may occur in a text. -/
theorem Derives.isSupported (h : Derives phrase u e) (hc : c ∈ u) : isSupported c = true := by
  rcases h.terminal_or_operator hc with hterminal | hoperator
  · simp [Regex.isSupported, hterminal]
  · simp only [List.mem_cons, List.not_mem_nil, or_false] at hoperator
    rcases hoperator with rfl | rfl | rfl | rfl <;> rfl

/-- There are no blanks in a phrase. -/
theorem Derives.isBlank_eq_false (h : Derives phrase u e) (hc : c ∈ u) :
    Text.isBlank c = false := by
  rcases h.terminal_or_operator hc with hterminal | hoperator
  · exact Symbol.isBlank_of_isTerminal hterminal
  · simp only [List.mem_cons, List.not_mem_nil, or_false] at hoperator
    rcases hoperator with rfl | rfl | rfl | rfl <;> rfl

/-- The letters of the expression are the terminals of the phrase, in order. -/
theorem Derives.letters_eq (h : Derives phrase u e) :
    e.letters = u.filter Symbol.isTerminal := by
  have hbar : Symbol.isTerminal '|' = false := by decide
  have hstar : Symbol.isTerminal '*' = false := by decide
  have hopening : Symbol.isTerminal '(' = false := by decide
  have hclosing : Symbol.isTerminal ')' = false := by decide
  induction h with
  | sequence _ ih | pieces _ ih | piece _ ih | atom _ ih => exact ih
  | nothing => rfl
  | bar _ _ ih ih' => simp [Expr.letters, ih, ih', hbar]
  | append _ _ ih ih' => simp [Expr.letters, ih, ih']
  | star _ ih => simp [Expr.letters, ih, hstar]
  | terminal hterminal => simp [Expr.letters, hterminal]
  | group _ ih => simp [ih, hopening, hclosing]

/-! ### What a phrase does to a frame -/

/-- **Reading the text takes the frame to the other one**, wherever the text stands and
whatever frames wait outside. -/
def Reads (u : List Char) (f f' : Frame) : Prop :=
  ∀ (cs : List (ℕ × Char)) (outer : List (ℕ × Frame)), cs.map Prod.snd = u →
    cs.foldlM readChar ⟨f, outer⟩ = .ok ⟨f', outer⟩

theorem Reads.append (h : Reads u f f') (h' : Reads v f' f'') : Reads (u ++ v) f f'' := by
  intro cs outer hcs
  obtain ⟨cs₁, cs₂, rfl, h₁, h₂⟩ := List.map_eq_append_iff.1 hcs
  rw [List.foldlM_append, h cs₁ outer h₁]
  exact h' cs₂ outer h₂

theorem reads_nil (f : Frame) : Reads [] f f := by
  intro cs outer hcs
  rw [List.map_eq_nil_iff.1 hcs]
  rfl

/-- One character is read at any column. -/
theorem reads_singleton (h : ∀ column outer, readChar ⟨f, outer⟩ (column, c) = .ok ⟨f', outer⟩) :
    Reads [c] f f' := by
  intro cs outer hcs
  obtain ⟨⟨column, d⟩, rfl, hd⟩ := List.map_eq_singleton_iff.1 hcs
  obtain rfl : d = c := hd
  rw [List.foldlM_cons, h column outer]
  rfl

theorem reads_bar (f : Frame) : Reads ['|'] f f.bar :=
  reads_singleton fun _ _ => rfl

theorem reads_star (h : f.star? = some f') : Reads ['*'] f f' := by
  refine reads_singleton fun column outer => ?_
  simp only [readChar, h]

theorem reads_terminal (h : Symbol.isTerminal c = true) (f : Frame) :
    Reads [c] f (f.push (.letter c)) := by
  refine reads_singleton fun column outer => ?_
  unfold readChar
  split
  case h_5 heq =>
    cases heq
    exact if_pos h
  -- no operator is a terminal
  all_goals
    rename_i heq
    cases heq
    cases h

/-- What is read in parentheses is pushed. -/
theorem reads_group (h : Reads u .blank f') (f : Frame) :
    Reads ('(' :: (u ++ [')'])) f (f.push f'.close) := by
  intro cs outer hcs
  obtain ⟨⟨column, d⟩, rest, rfl, hd, hrest⟩ := List.map_eq_cons_iff.1 hcs
  obtain rfl : d = '(' := hd
  obtain ⟨cs', last, rfl, hcs', hlast⟩ := List.map_eq_append_iff.1 hrest
  obtain ⟨⟨column', d'⟩, rfl, hd'⟩ := List.map_eq_singleton_iff.1 hlast
  obtain rfl : d' = ')' := hd'
  have hopen : readChar ⟨f, outer⟩ (column, '(') = .ok ⟨.blank, (column, f) :: outer⟩ := rfl
  have hinside := h cs' ((column, f) :: outer) hcs'
  rw [List.foldlM_cons, hopen]
  show (cs' ++ [(column', ')')]).foldlM readChar ⟨.blank, (column, f) :: outer⟩ = _
  rw [List.foldlM_append, hinside]
  rfl

theorem Frame.allPieces_push (f : Frame) (e : Expr Symbol) :
    (f.push e).allPieces = some (append f.allPieces e) := rfl

/-- A star takes the place of the piece that was pushed. -/
theorem Frame.star?_push (f : Frame) (e : Expr Symbol) :
    (f.push e).star? = some ⟨f.branches, some (append f.allPieces (.star e)), none⟩ := rfl

/-- What reading a phrase does to a frame. -/
def Phrase.Effect (u : List Char) (e : Expr Symbol) : Phrase → Prop
  | .alternatives => ∃ f', Reads u .blank f' ∧ f'.close = e
  | .sequence => ∀ f, f.allPieces = none →
    ∃ f', Reads u f f' ∧ f'.branches = f.branches ∧ f'.allPieces.getD .empty = e
  | .pieces => ∀ f, f.allPieces = none →
    ∃ f', Reads u f f' ∧ f'.branches = f.branches ∧ f'.allPieces = some e
  | .piece => ∀ f,
    ∃ f', Reads u f f' ∧ f'.branches = f.branches ∧
      f'.allPieces = some (Frame.append f.allPieces e)
  | .atom => ∀ f, Reads u f (f.push e)

/-- **Reading a phrase has its effect.**  The induction is on the derivation, and there is
a case for each production of the grammar. -/
theorem Derives.effect (h : Derives phrase u e) : phrase.Effect u e := by
  induction h with
  | sequence _ ih =>
    obtain ⟨f', hread, hbranches, hpieces⟩ := ih .blank rfl
    refine ⟨f', hread, ?_⟩
    rw [Frame.close, hbranches]
    exact hpieces
  | bar _ _ ih ih' =>
    obtain ⟨f₁, hread₁, hclose⟩ := ih
    obtain ⟨f₂, hread₂, hbranches, hpieces⟩ := ih' f₁.bar rfl
    refine ⟨f₂, hread₁.append ((reads_bar f₁).append hread₂), ?_⟩
    rw [Frame.close, hbranches, Frame.bar, hclose, ← hpieces]
  | nothing =>
    intro f hf
    exact ⟨f, reads_nil f, rfl, by rw [hf, Option.getD_none]⟩
  | pieces _ ih =>
    intro f hf
    obtain ⟨f', hread, hbranches, hpieces⟩ := ih f hf
    exact ⟨f', hread, hbranches, by rw [hpieces, Option.getD_some]⟩
  | piece _ ih =>
    intro f hf
    obtain ⟨f', hread, hbranches, hpieces⟩ := ih f
    rw [hf] at hpieces
    exact ⟨f', hread, hbranches, hpieces⟩
  | append _ _ ih ih' =>
    intro f hf
    obtain ⟨f₁, hread₁, hbranches₁, hpieces₁⟩ := ih f hf
    obtain ⟨f₂, hread₂, hbranches₂, hpieces₂⟩ := ih' f₁
    rw [hpieces₁] at hpieces₂
    exact ⟨f₂, hread₁.append hread₂, hbranches₂.trans hbranches₁, hpieces₂⟩
  | atom _ ih =>
    intro f
    exact ⟨_, ih f, rfl, Frame.allPieces_push f _⟩
  | star _ ih =>
    intro f
    exact ⟨_, (ih f).append (reads_star (Frame.star?_push f _)), rfl, rfl⟩
  | terminal hterminal =>
    intro f
    exact reads_terminal hterminal f
  | group _ ih =>
    intro f
    obtain ⟨f', hread, rfl⟩ := ih
    exact reads_group hread f

/-! ### What a frame stands for -/

/-- Where there is an expression, the text is a phrase for it; where there is none, the
text is empty. -/
def ReadAs (P : List Char → Expr Symbol → Prop) : Option (Expr Symbol) → List Char → Prop
  | none, u => u = []
  | some e, u => P u e

/-- **The frame was filled with the text**: alternatives with a bar behind them, pieces, and
an atom. -/
def Frame.HasRead (f : Frame) (text : List Char) : Prop :=
  ∃ u v w, text = u ++ (v ++ w) ∧
    ReadAs (fun u e => ∃ u', u = u' ++ ['|'] ∧ Derives .alternatives u' e) f.branches u ∧
    ReadAs (Derives .pieces) f.pieces v ∧ ReadAs (Derives .atom) f.last w

/-- **The frames that wait were filled with the text**, with parentheses behind them. -/
def HasReadOuter : List (ℕ × Frame) → List Char → Prop
  | [], text => text = []
  | (_, f) :: outer, text => ∃ u v, text = u ++ (v ++ ['(']) ∧ HasReadOuter outer u ∧ f.HasRead v

/-- **All frames were filled with the text.** -/
def ParseState.HasRead (state : ParseState) (text : List Char) : Prop :=
  ∃ u v, text = u ++ v ∧ HasReadOuter state.outer u ∧ state.inner.HasRead v

/-- One more piece. -/
theorem ReadAs.append {before : Option (Expr Symbol)} (h : ReadAs (Derives .pieces) before u)
    (h' : Derives .piece v e) : Derives .pieces (u ++ v) (Frame.append before e) := by
  cases before with
  | none =>
    obtain rfl : u = [] := h
    exact .piece h'
  | some e' => exact .append h h'

/-- Pieces, or nothing, are a sequence. -/
theorem ReadAs.sequence {pieces : Option (Expr Symbol)} (h : ReadAs (Derives .pieces) pieces u) :
    Derives .sequence u (pieces.getD .empty) := by
  cases pieces with
  | none =>
    obtain rfl : u = [] := h
    exact .nothing
  | some e => exact .pieces h

namespace Frame

theorem hasRead_blank : blank.HasRead [] := ⟨[], [], [], rfl, rfl, rfl, rfl⟩

/-- All pieces, with the last one. -/
theorem readAs_allPieces (hpieces : ReadAs (Derives .pieces) f.pieces v)
    (hlast : ReadAs (Derives .atom) f.last w) :
    ReadAs (Derives .pieces) f.allPieces (v ++ w) := by
  unfold allPieces
  cases heq : f.last with
  | none =>
    rw [heq] at hlast
    obtain rfl : w = [] := hlast
    rwa [List.append_nil]
  | some e =>
    rw [heq] at hlast
    exact hpieces.append (.atom hlast)

variable (h : f.HasRead text)

include h

/-- A frame that is filled with a text stands for alternatives. -/
theorem HasRead.close : Derives .alternatives text f.close := by
  obtain ⟨u, v, w, rfl, hbranches, hpieces, hlast⟩ := h
  have hsequence := (readAs_allPieces hpieces hlast).sequence
  unfold Frame.close
  cases heq : f.branches with
  | none =>
    rw [heq] at hbranches
    obtain rfl : u = [] := hbranches
    exact .sequence hsequence
  | some e =>
    rw [heq] at hbranches
    obtain ⟨u', rfl, hu'⟩ := hbranches
    rw [List.append_assoc, List.singleton_append]
    exact .bar hu' hsequence

theorem HasRead.bar : f.bar.HasRead (text ++ ['|']) :=
  ⟨text ++ ['|'], [], [], by simp, ⟨text, rfl, h.close⟩, rfl, rfl⟩

theorem HasRead.push (he : Derives .atom u e) : (f.push e).HasRead (text ++ u) := by
  obtain ⟨t, v, w, rfl, hbranches, hpieces, hlast⟩ := h
  exact ⟨t, v ++ w, u, by simp, hbranches, readAs_allPieces hpieces hlast, he⟩

theorem HasRead.star? (hstar : f.star? = some f') : f'.HasRead (text ++ ['*']) := by
  obtain ⟨u, v, w, rfl, hbranches, hpieces, hlast⟩ := h
  obtain ⟨e, he, rfl⟩ := Option.map_eq_some_iff.1 hstar
  rw [he] at hlast
  have hmore : Derives .pieces (v ++ (w ++ ['*'])) (Frame.append f.pieces (.star e)) :=
    hpieces.append (.star hlast)
  exact ⟨u, v ++ (w ++ ['*']), [], by simp, hbranches, hmore, rfl⟩

end Frame

/-- **One character more is read.** -/
theorem hasRead_readChar {c : ℕ × Char} (h : state.HasRead text)
    (hread : readChar state c = .ok state') : state'.HasRead (text ++ [c.2]) := by
  obtain ⟨u, v, rfl, houter, hinner⟩ := h
  unfold readChar at hread
  split at hread
  · cases hread
    exact ⟨u, v ++ ['|'], by simp, houter, hinner.bar⟩
  · split at hread
    · rename_i inner hstar
      cases hread
      exact ⟨u, v ++ ['*'], by simp, houter, hinner.star? hstar⟩
    · cases hread
  · -- the frame waits, and a blank one takes its place
    cases hread
    exact ⟨u ++ (v ++ ['(']), [], by simp, ⟨u, v, rfl, houter, hinner⟩, Frame.hasRead_blank⟩
  · -- what was read in parentheses is an atom of the frame that waits
    split at hread
    · rename_i column frame outer hstate
      cases hread
      rw [hstate] at houter
      obtain ⟨t, s, rfl, hrest, hframe⟩ := houter
      exact ⟨t, s ++ ('(' :: (v ++ [')'])), by simp, hrest, hframe.push (.group hinner.close)⟩
    · cases hread
  · split at hread
    · rename_i hterminal
      cases hread
      exact ⟨u, v ++ [_], by simp, houter, hinner.push (.terminal hterminal)⟩
    · cases hread

theorem hasRead_foldlM {cs : List (ℕ × Char)} (h : state.HasRead text)
    (hread : cs.foldlM readChar state = .ok state') :
    state'.HasRead (text ++ cs.map Prod.snd) := by
  induction cs generalizing state text with
  | nil =>
    cases hread
    rwa [List.map_nil, List.append_nil]
  | cons c cs ih =>
    rw [List.foldlM_cons] at hread
    obtain ⟨next, hnext, hread⟩ := exists_of_bind_eq_ok hread
    have := ih (hasRead_readChar h hnext) hread
    rwa [List.append_assoc, List.singleton_append] at this

/-! ### Texts -/

/-- The characters of a text that are not blank. -/
def unspaced (text : List Char) : List Char := text.filter fun c => !Text.isBlank c

theorem map_snd_columns (text : List Char) :
    ((columns text).filter fun c => !Text.isBlank c.2).map Prod.snd = unspaced text := by
  have hall : (columns text).map Prod.snd = text := by
    rw [columns, List.map_map]
    exact List.zipIdx_map_fst 1 text
  conv_rhs => rw [← hall]
  rw [unspaced, List.filter_map]
  rfl

/-- A text whose characters other than blanks make up a phrase has no unsupported ones. -/
theorem find?_columns (h : Derives phrase (unspaced text) e) :
    ((columns text).find? fun c => !isSupported c.2) = none := by
  rw [List.find?_eq_none]
  intro c hc
  have hmem : c.2 ∈ text := by
    obtain ⟨⟨d, i⟩, hd, rfl⟩ := List.mem_map.1 hc
    exact (List.mem_zipIdx hd).2.2 ▸ List.getElem_mem _
  have hsupported : isSupported c.2 = true := by
    by_cases hblank : Text.isBlank c.2 = true
    · simp [isSupported, hblank]
    · have : c.2 ∈ unspaced text := List.mem_filter.2 ⟨hmem, by simpa using hblank⟩
      exact h.isSupported this
  simpa using hsupported

/-- **A text is read as an expression if it is derived**, blanks apart. -/
theorem parse_eq_ok_iff : parse text = .ok e ↔ Derives .alternatives (unspaced text) e := by
  constructor
  · intro h
    unfold parse at h
    split at h
    · cases h
    · obtain ⟨state, hread, hfinish⟩ := exists_of_bind_eq_ok h
      have hstate : (⟨.blank, []⟩ : ParseState).HasRead [] :=
        ⟨[], [], rfl, rfl, Frame.hasRead_blank⟩
      obtain ⟨u, v, htext, houter, hinner⟩ := hasRead_foldlM hstate hread
      rw [List.nil_append, map_snd_columns] at htext
      unfold finish at hfinish
      split at hfinish
      · rename_i hnone
        cases hfinish
        rw [hnone] at houter
        obtain rfl : u = [] := houter
        rw [htext]
        exact hinner.close
      · cases hfinish
  · intro h
    obtain ⟨f, hread, rfl⟩ := h.effect
    unfold parse
    rw [find?_columns h]
    simp only
    rw [hread _ [] (map_snd_columns text)]
    rfl

/-- **The letters of an expression are the terminals of its text**, in order. -/
theorem letters_parse (h : parse text = .ok e) : e.letters = text.filter Symbol.isTerminal := by
  rw [(parse_eq_ok_iff.1 h).letters_eq, unspaced, List.filter_filter]
  refine List.filter_congr fun c _ => ?_
  cases hterminal : Symbol.isTerminal c with
  | false => rfl
  | true => simp [Symbol.isBlank_of_isTerminal hterminal]

/-- There are no blanks to leave out in a phrase. -/
theorem Derives.unspaced_eq (h : Derives phrase u e) : unspaced u = u := by
  rw [unspaced, List.filter_eq_self]
  intro c hc
  rw [h.isBlank_eq_false hc]
  rfl

/-- **A text has at most one expression**, as the reader finds it. -/
theorem Derives.unique (h : Derives .alternatives u e) (h' : Derives .alternatives u e') :
    e = e' := by
  have hparse : parse u = .ok e := parse_eq_ok_iff.2 (by rwa [h.unspaced_eq])
  have hparse' : parse u = .ok e' := parse_eq_ok_iff.2 (by rwa [h'.unspaced_eq])
  exact Except.ok.inj (hparse.symm.trans hparse')

/-! ### Rendering -/

/-- An expression with parentheses around every operand.  The empty word is written as
nothing. -/
def Expr.render : Expr Symbol → List Char
  | .empty => []
  | .letter c => [c]
  | .star e => '(' :: (e.render ++ [')']) ++ ['*']
  | .alternation e e' => '(' :: (e.render ++ [')']) ++ '|' :: '(' :: (e'.render ++ [')'])
  | .concatenation e e' => '(' :: (e.render ++ [')']) ++ '(' :: (e'.render ++ [')'])

/-- **An expression over terminals is derived by its rendering.** -/
theorem derives_render (h : e.OverTerminals) : Derives .alternatives e.render e := by
  have hpiece : ∀ {u e}, Derives .piece u e → Derives .alternatives u e := fun hu =>
    .sequence (.pieces (.piece hu))
  induction e with
  | empty => exact .sequence .nothing
  | letter c => exact hpiece (.atom (.terminal (h c List.mem_cons_self)))
  | star e ih => exact hpiece (.star (.group (ih h)))
  | alternation e e' ih ih' =>
    have hleft := ih fun s hs => h s (List.mem_append_left _ hs)
    have hright := ih' fun s hs => h s (List.mem_append_right _ hs)
    exact .bar (hpiece (.atom (.group hleft))) (.pieces (.piece (.atom (.group hright))))
  | concatenation e e' ih ih' =>
    have hleft := ih fun s hs => h s (List.mem_append_left _ hs)
    have hright := ih' fun s hs => h s (List.mem_append_right _ hs)
    have hpieces : Derives .pieces (Expr.render (.concatenation e e')) (.concatenation e e') :=
      .append (.piece (.atom (.group hleft))) (.atom (.group hright))
    exact .sequence (.pieces hpieces)

/-- **The reader is exact and onto.**  A text is read as the expression that it derives,
blanks apart, and as no other; and every expression over terminals is read from its
rendering. -/
theorem parse_exact_onto :
    (∀ text e, parse text = .ok e ↔
      Derives .alternatives (text.filter fun c => !Text.isBlank c) e) ∧
    (∀ u e e', Derives .alternatives u e → Derives .alternatives u e' → e = e') ∧
    ∀ e : Expr Symbol, e.OverTerminals → parse e.render = .ok e := by
  refine ⟨fun text e => parse_eq_ok_iff, fun u e e' => Derives.unique, fun e h => ?_⟩
  have hrender := derives_render h
  rw [parse_eq_ok_iff, hrender.unspaced_eq]
  exact hrender

/-- The text `a b|(c|)*`, and what its expression is rendered as. -/
theorem parse_exact_onto_nested :
    let e : Expr Symbol := .alternation (.concatenation (.letter 'a') (.letter 'b'))
      (.star (.alternation (.letter 'c') .empty))
    Derives .alternatives "ab|(c|)*".toList e ∧ parse "a b | (c |) *".toList = .ok e ∧
      e.render = "((a)(b))|(((c)|())*)".toList ∧ parse e.render = .ok e := by
  intro e
  have hexpr : parse "a b | (c |) *".toList = .ok e := rfl
  have hterminals : e.OverTerminals := overTerminals_parse hexpr
  exact ⟨(parse_exact_onto.1 _ e).1 hexpr, hexpr, rfl, parse_exact_onto.2.2 e hterminals⟩

end FiniteState.Regex
