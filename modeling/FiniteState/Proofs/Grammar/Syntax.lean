import FiniteState.Proofs.Grammar.Proper
import FiniteState.Proofs.Text

/-!
# Which lines are rules

A line is a rule if it spells a nonterminal, an arrow and alternatives with bars
between them, where an alternative is the marker of the empty word, a terminal, or a
terminal and a nonterminal.  A line spells its tokens with blanks anywhere between
them.  This file says so without the reader, and shows that the reader agrees: it
finds the tokens, and from them the rule, exactly where there are some to find.

## Main definitions

* `Production.tokens` — the tokens of an alternative.
* `Token.Spells` — the line spells the tokens.
* `Grammar.StatesRule`, `Grammar.IsRule` — the line is a rule.
* `Grammar.Rule.StatedOn` — the line states the rule.

## Main results

* `Token.ofText_eq_ok_iff` — **the reader finds the tokens that a line spells**.
* `Grammar.parseAlternative_eq_ok_iff`, `Grammar.parseTokens_eq_ok_iff` — the same of
  alternatives and of rules.
* `Grammar.parseRule_eq_ok_iff` — **the rule of a line is read if the line states one**.
* `Grammar.exists_parseRule_eq_error` — an error is reported where the line begins.
-/

namespace FiniteState

/-- The tokens of an alternative. -/
def Production.tokens : Production → List Token
  | .empty => [.epsilon]
  | .terminal t => [.terminal t]
  | .step t n => [.terminal t, .nonterminal n]

theorem Production.bar_notMem_tokens (p : Production) : Token.bar ∉ p.tokens := by
  cases p <;> simp [tokens]

/-! ### Tokens -/

namespace Token

variable {c : Char} {text : List Char} {token : Token} {tokens : List Token}

/-- **The text spells the tokens**, one after the other, with blanks anywhere between
them. -/
inductive Spells : List Char → List Token → Prop
  /-- No text spells no tokens. -/
  | nil : Spells [] []
  /-- A blank means nothing. -/
  | blank {c : Char} {text : List Char} {tokens : List Token} :
    Text.isBlank c = true → Spells text tokens → Spells (c :: text) tokens
  /-- A token is spelled by its characters, which stand next to each other. -/
  | token (token : Token) {text : List Char} {tokens : List Token} :
    token.Proper → Spells text tokens → Spells (token.display.toList ++ text) (token :: tokens)

/-- The character of a token, for all tokens but the arrow. -/
theorem toList_display_of_ofChar? (h : ofChar? c = some token) : token.display.toList = [c] := by
  unfold ofChar? at h
  split at h
  · rename_i hc
    cases h
    rw [hc]
    rfl
  split at h
  · rename_i hc
    cases h
    rw [Symbol.isEpsilon_iff.1 hc]
    simp [display]
  split at h
  · cases h
    simp [display]
  split at h
  · cases h
    simp [display]
  · cases h

/-- A proper token is an arrow or stands for a character. -/
theorem eq_arrow_or_ofChar? (h : token.Proper) :
    token = .arrow ∨ ∃ c, token.display.toList = [c] ∧ ofChar? c = some token := by
  cases token with
  | arrow => exact .inl rfl
  | bar => exact .inr ⟨'|', by simp [display], rfl⟩
  | epsilon => exact .inr ⟨Symbol.epsilon, by simp [display], rfl⟩
  | nonterminal n =>
    have hn : Symbol.isNonterminal n = true := h
    have hbar : n ≠ '|' := by
      rintro rfl
      cases hn
    have hepsilon : Symbol.isEpsilon n = false := by
      rw [← Bool.not_eq_true, Symbol.isEpsilon_iff]
      rintro rfl
      cases hn
    refine .inr ⟨n, by simp [display], ?_⟩
    simp [ofChar?, hbar, hepsilon, hn, Symbol.not_isTerminal_of_isNonterminal hn]
  | terminal t =>
    have ht : Symbol.isTerminal t = true := h
    have hbar : t ≠ '|' := by
      rintro rfl
      cases ht
    have hepsilon : Symbol.isEpsilon t = false := by
      rw [← Bool.not_eq_true, Symbol.isEpsilon_iff]
      rintro rfl
      cases ht
    refine .inr ⟨t, by simp [display], ?_⟩
    simp [ofChar?, hbar, hepsilon, ht]

/-- A character of a token is not blank. -/
theorem isBlank_of_ofChar? (h : ofChar? c = some token) : Text.isBlank c = false := by
  unfold ofChar? at h
  split at h
  · rename_i hc
    rw [hc]
    decide
  split at h
  · rename_i hc
    rw [Symbol.isEpsilon_iff.1 hc]
    decide
  split at h
  · rename_i hc
    exact Symbol.isBlank_of_isTerminal hc
  split at h
  · rename_i hc
    exact Symbol.isBlank_of_isNonterminal hc
  · cases h

/-! ### The reader -/

/-- Away from an arrow, the reader looks at one character. -/
theorem ofText_cons (hc : c ≠ '-') (text : List Char) :
    ofText (c :: text) =
      match ofChar? c with
      | some token => (ofText text).map (token :: ·)
      | none => if Text.isBlank c then ofText text else .error (.unexpectedCharacter c) := by
  refine (ofText.eq_3 _ _ fun _ heq _ => hc heq).trans ?_
  cases ofChar? c <;> rfl

theorem ofText_blank (hc : Text.isBlank c = true) (text : List Char) :
    ofText (c :: text) = ofText text := by
  have hdash : c ≠ '-' := by
    rintro rfl
    cases hc
  have hnone : ofChar? c = none := by
    cases htoken : ofChar? c with
    | none => rfl
    | some token =>
      rw [isBlank_of_ofChar? htoken] at hc
      cases hc
  rw [ofText_cons hdash, hnone]
  exact if_pos hc

theorem ofText_token (htoken : token.Proper) (text : List Char) :
    ofText (token.display.toList ++ text) = (ofText text).map (token :: ·) := by
  rcases eq_arrow_or_ofChar? htoken with rfl | ⟨c, hdisplay, hc⟩
  · show ofText ('-' :: '>' :: text) = _
    rw [ofText]
  · have hdash : c ≠ '-' := by
      rintro rfl
      cases hc
    rw [hdisplay, List.singleton_append, ofText_cons hdash, hc]

/-- **The reader finds the tokens that the text spells.** -/
theorem ofText_eq_ok_iff : ofText text = .ok tokens ↔ Spells text tokens := by
  constructor
  · intro h
    -- one case for each clause of the reader
    fun_induction ofText text generalizing tokens with
    | case1 =>
      cases h
      exact .nil
    | case2 rest ih =>
      obtain ⟨tokens', hrest, rfl⟩ := exists_of_map_eq_ok h
      exact .token .arrow trivial (ih hrest)
    | case3 c rest _ token htoken ih =>
      obtain ⟨tokens', hrest, rfl⟩ := exists_of_map_eq_ok h
      have := Spells.token token (Grammar.proper_of_ofChar? htoken) (ih hrest)
      rwa [toList_display_of_ofChar? htoken] at this
    | case4 c rest _ _ hblank ih => exact .blank hblank (ih h)
    | case5 => cases h
  · intro h
    induction h with
    | nil => rfl
    | blank hc _ ih => rw [ofText_blank hc, ih]
    | token _ htoken _ ih =>
      rw [ofText_token htoken, ih]
      rfl

end Token

/-! ### Rules -/

namespace Grammar

variable {head : Symbol} {alternatives : List Production} {tokens : List Token} {p : Production}
  {line : ℕ × List Char} {rule : Rule}

/-- **The line states a rule**: a nonterminal, an arrow and alternatives with bars between
them. -/
def StatesRule (text : List Char) (head : Symbol) (alternatives : List Production) : Prop :=
  alternatives ≠ [] ∧
    Token.Spells text (.nonterminal head :: .arrow ::
      [Token.bar].intercalate (alternatives.map Production.tokens))

/-- The line is a rule. -/
def IsRule (text : List Char) : Prop := ∃ head alternatives, StatesRule text head alternatives

/-- **An alternative is read from its tokens.** -/
theorem parseAlternative_eq_ok_iff : parseAlternative tokens = .ok p ↔ tokens = p.tokens := by
  constructor
  · intro h
    obtain ⟨rfl, rfl⟩ | ⟨t, rfl, rfl⟩ | ⟨t, n, rfl, rfl⟩ := parseAlternative_eq_ok h
    · rfl
    · rfl
    · rfl
  · rintro rfl
    cases p <;> rfl

/-- Alternatives are read from their tokens, one by one. -/
theorem mapM_parseAlternative_eq_ok_iff {pieces : List (List Token)} :
    pieces.mapM parseAlternative = .ok alternatives ↔
      pieces = alternatives.map Production.tokens := by
  induction pieces generalizing alternatives with
  | nil =>
    constructor
    · intro h
      cases h
      rfl
    · intro h
      rw [List.map_eq_nil_iff.1 h.symm]
      rfl
  | cons piece pieces ih =>
    rw [List.mapM_cons]
    constructor
    · intro h
      obtain ⟨p, hp, h⟩ := exists_of_bind_eq_ok h
      obtain ⟨rest, hrest, h⟩ := exists_of_bind_eq_ok h
      cases h
      rw [parseAlternative_eq_ok_iff.1 hp, ih.1 hrest, List.map_cons]
    · intro h
      obtain ⟨p, rest, rfl, hp, hrest⟩ := List.map_eq_cons_iff.1 h.symm
      rw [parseAlternative_eq_ok_iff.2 hp.symm, ih.2 hrest.symm]
      rfl

/-- **A rule is read from its tokens**: the bars are where the alternatives are split. -/
theorem parseTokens_eq_ok_iff : parseTokens tokens = .ok (head, alternatives) ↔
    alternatives ≠ [] ∧ tokens = .nonterminal head :: .arrow ::
      [Token.bar].intercalate (alternatives.map Production.tokens) := by
  constructor
  · intro h
    obtain ⟨rest, rfl, halts⟩ := parseTokens_eq_ok h
    have hsplit := mapM_parseAlternative_eq_ok_iff.1 halts
    refine ⟨?_, by rw [← hsplit, List.intercalate_splitOn]⟩
    rintro rfl
    exact List.splitOn_ne_nil _ _ hsplit
  · rintro ⟨hne, rfl⟩
    have hsplit : ([Token.bar].intercalate (alternatives.map Production.tokens)).splitOn .bar =
        alternatives.map Production.tokens :=
      List.splitOn_intercalate _ (by simp [Production.bar_notMem_tokens]) (by simpa using hne)
    rw [parseTokens, hsplit, mapM_parseAlternative_eq_ok_iff.2 rfl]
    rfl

/-- A text is read as a rule, by its tokens, if it states one. -/
theorem ofText_bind_parseTokens_eq_ok_iff {text : List Char} :
    Token.ofText text >>= parseTokens = .ok (head, alternatives) ↔
      StatesRule text head alternatives := by
  rw [StatesRule, ← Token.ofText_eq_ok_iff]
  constructor
  · intro h
    obtain ⟨tokens, hread, hparse⟩ := exists_of_bind_eq_ok h
    obtain ⟨hne, rfl⟩ := parseTokens_eq_ok_iff.1 hparse
    exact ⟨hne, hread⟩
  · intro h
    obtain ⟨hne, hread⟩ := h
    rw [hread]
    exact parseTokens_eq_ok_iff.2 ⟨hne, rfl⟩

theorem parseRule_of_ok
    (h : Token.ofText line.2 >>= parseTokens = .ok (head, alternatives)) :
    parseRule line = .ok ⟨line.1, head, alternatives⟩ := by
  simp only [parseRule, h]

theorem parseRule_of_error {cause : GrammarError}
    (h : Token.ofText line.2 >>= parseTokens = .error cause) :
    parseRule line = .error ⟨.onLine line.1, cause⟩ := by
  simp only [parseRule, h]

/-- **The line states the rule**, which begins there. -/
def Rule.StatedOn (rule : Rule) (line : ℕ × List Char) : Prop :=
  rule.line = line.1 ∧ StatesRule line.2 rule.head rule.alternatives

/-- **The rule of a line is read if the line states one.** -/
theorem parseRule_eq_ok_iff : parseRule line = .ok rule ↔ rule.StatedOn line := by
  rw [Rule.StatedOn, ← ofText_bind_parseTokens_eq_ok_iff]
  constructor
  · intro h
    cases hparsed : Token.ofText line.2 >>= parseTokens with
    | error cause =>
      rw [parseRule_of_error hparsed] at h
      cases h
    | ok parsed =>
      rw [parseRule_of_ok hparsed] at h
      cases h
      exact ⟨rfl, rfl⟩
  · intro h
    rw [parseRule_of_ok h.2, ← h.1]

/-- A line that states no rule has an error, which is reported where the line begins. -/
theorem exists_parseRule_eq_error (h : ¬ IsRule line.2) :
    ∃ cause, parseRule line = .error ⟨.onLine line.1, cause⟩ := by
  cases hparsed : Token.ofText line.2 >>= parseTokens with
  | ok parsed => exact absurd ⟨_, _, ofText_bind_parseTokens_eq_ok_iff.1 hparsed⟩ h
  | error cause => exact ⟨cause, parseRule_of_error hparsed⟩

/-- The text is a rule if a rule is read from it. -/
instance (text : List Char) : Decidable (IsRule text) :=
  match hparsed : Token.ofText text >>= parseTokens with
  | .ok (head, alternatives) =>
    isTrue ⟨head, alternatives, ofText_bind_parseTokens_eq_ok_iff.1 hparsed⟩
  | .error _ => isFalse fun ⟨_, _, hstates⟩ => by
    rw [ofText_bind_parseTokens_eq_ok_iff.2 hstates] at hparsed
    cases hparsed

end Grammar

end FiniteState
