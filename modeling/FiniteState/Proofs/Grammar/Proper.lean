import FiniteState.Grammar.Parser
import FiniteState.Proofs.List

/-!
# Proper grammars

The type of grammars says nothing about which characters stand for what, nor about
the empty word.  The grammars that the library makes are more special.  Heads are
nonterminals, alternatives are made of a terminal and a nonterminal, the start symbol
occurs, and no other nonterminal derives the empty word.

A text becomes such a grammar or none.  Its tokens are told apart by the kinds of
their characters, three shapes of tokens are alternatives, and the rules about the
empty word are checked before a grammar is made.

## Main definitions

* `Token.Proper`, `Production.Proper` — the symbols are of the kinds that they should be.
* `Grammar.ProperRule` — the same of a nonterminal with its alternatives.
* `Grammar.Proper` — **the grammars that the library makes**.

## Main results

* `Grammar.parseAlternative_eq_ok`, `Grammar.parseTokens_eq_ok`, `Grammar.ofRules_eq_ok`,
  `Grammar.parse_eq_ok` — what is read where reading succeeds.
* `Grammar.proper_parse` — **a grammar that is read from a text is proper**.
-/

namespace FiniteState

/-- The symbol of a token is of the kind that the token says. -/
def Token.Proper : Token → Prop
  | .nonterminal n => Symbol.isNonterminal n = true
  | .terminal t => Symbol.isTerminal t = true
  | .arrow | .bar | .epsilon => True

/-- A right-hand side is made of a terminal and a nonterminal. -/
def Production.Proper : Production → Prop
  | .empty => True
  | .terminal t => Symbol.isTerminal t = true
  | .step t n => Symbol.isTerminal t = true ∧ Symbol.isNonterminal n = true

theorem Production.nonterminal?_eq_some_iff {p : Production} {n : Symbol} :
    p.nonterminal? = some n ↔ ∃ t, p = .step t n := by
  cases p <;> simp [nonterminal?]

namespace Grammar

variable {g : Grammar} {n : Symbol} {tokens : List Token} {p : Production}

/-- A nonterminal with proper alternatives. -/
structure ProperRule (head : Symbol) (alternatives : List Production) : Prop where
  /-- The head is a nonterminal. -/
  head : Symbol.isNonterminal head = true
  /-- Every alternative is proper. -/
  alternatives : ∀ p ∈ alternatives, p.Proper

/-- **The grammars that the library makes.** -/
structure Proper (g : Grammar) : Prop where
  /-- Every rule is proper. -/
  rule : ∀ e ∈ g.productions, ProperRule e.1 e.2
  /-- The start symbol occurs in some rule. -/
  start_mem : g.start ∈ g.nonterminals
  /-- Only the start symbol derives the empty word. -/
  start_of_empty : ∀ e ∈ g.productions, .empty ∈ e.2 → e.1 = g.start

theorem mem_nonterminals : n ∈ g.nonterminals ↔
    ∃ e ∈ g.productions, n = e.1 ∨ ∃ p ∈ e.2, p.nonterminal? = some n := by
  simp [nonterminals, List.mem_eraseDups]

theorem mem_terminals {t : Symbol} : t ∈ g.terminals ↔
    ∃ e ∈ g.productions, ∃ p ∈ e.2, p.terminalSymbol = t := by
  simp [terminals, List.mem_eraseDups]

/-- An alternative of a nonterminal stands in a rule. -/
theorem mem_alternatives (h : p ∈ g.alternatives n) :
    ∃ alts, (n, alts) ∈ g.productions ∧ p ∈ alts := by
  unfold alternatives at h
  cases halts : g.productions.lookup n with
  | none => simp [halts] at h
  | some alts =>
    rw [halts, Option.getD_some] at h
    exact ⟨alts, List.mem_of_lookup_eq_some halts, h⟩

theorem mem_nonterminals_of_step {t m : Symbol} (h : .step t m ∈ g.alternatives n) :
    m ∈ g.nonterminals := by
  obtain ⟨alts, halts, hp⟩ := mem_alternatives h
  exact mem_nonterminals.2 ⟨_, halts, .inr ⟨_, hp, rfl⟩⟩

theorem terminalSymbol_mem_terminals (h : p ∈ g.alternatives n) :
    p.terminalSymbol ∈ g.terminals := by
  obtain ⟨alts, halts, hp⟩ := mem_alternatives h
  exact mem_terminals.2 ⟨_, halts, p, hp, rfl⟩

namespace Proper

variable (h : g.Proper)

include h

theorem proper_of_mem_alternatives (hp : p ∈ g.alternatives n) : p.Proper := by
  obtain ⟨alts, halts, hp⟩ := mem_alternatives hp
  exact (h.rule _ halts).alternatives p hp

/-- **Only the start symbol derives the empty word.** -/
theorem eq_start_of_empty (hempty : .empty ∈ g.alternatives n) : n = g.start := by
  obtain ⟨alts, halts, hp⟩ := mem_alternatives hempty
  exact h.start_of_empty _ halts hp

/-- The nonterminals are uppercase letters. -/
theorem isNonterminal (hn : n ∈ g.nonterminals) : Symbol.isNonterminal n = true := by
  obtain ⟨e, he, rfl | ⟨p, hp, hpn⟩⟩ := mem_nonterminals.1 hn
  · exact (h.rule e he).head
  · have hproper := (h.rule e he).alternatives p hp
    cases p with
    | empty | terminal => cases hpn
    | step t m =>
      obtain rfl := Option.some.inj hpn
      exact hproper.2

/-- A symbol with a column is a terminal or the marker. -/
theorem isTransitionSymbol {t : Symbol} (ht : t ∈ g.terminals) :
    Symbol.isTransitionSymbol t = true := by
  obtain ⟨e, he, p, hp, rfl⟩ := mem_terminals.1 ht
  have hproper := (h.rule e he).alternatives p hp
  cases p with
  | empty => rfl
  | terminal t => exact Symbol.isTransitionSymbol_iff.2 (.inl hproper)
  | step t m => exact Symbol.isTransitionSymbol_iff.2 (.inl hproper.1)

end Proper

/-! ### Tokens -/

/-- The kind of a character decides which token it is. -/
theorem proper_of_ofChar? {c : Char} {token : Token} (h : Token.ofChar? c = some token) :
    token.Proper := by
  unfold Token.ofChar? at h
  split at h
  · cases h
    trivial
  split at h
  · cases h
    trivial
  split at h
  · rename_i hterminal
    cases h
    exact hterminal
  split at h
  · rename_i hnonterminal
    cases h
    exact hnonterminal
  · cases h

/-- The tokens of a line are proper. -/
theorem proper_of_mem_ofText {line : List Char} (h : Token.ofText line = .ok tokens) :
    ∀ token ∈ tokens, token.Proper := by
  -- one case for each clause of the reader: the end, an arrow, a token, a blank and an error
  fun_induction Token.ofText line generalizing tokens with
  | case1 =>
    cases h
    simp
  | case2 rest ih =>
    obtain ⟨tokens', hrest, rfl⟩ := exists_of_map_eq_ok h
    exact List.forall_mem_cons.2 ⟨trivial, ih hrest⟩
  | case3 c rest _ token htoken ih =>
    obtain ⟨tokens', hrest, rfl⟩ := exists_of_map_eq_ok h
    exact List.forall_mem_cons.2 ⟨proper_of_ofChar? htoken, ih hrest⟩
  | case4 c rest _ _ _ ih => exact ih h
  | case5 => cases h

/-! ### Rules -/

/-- The error for tokens that are no alternative. -/
def rejectAlternative (tokens : List Token) : Except GrammarError Production :=
  if tokens.contains .arrow then .error .unexpectedArrow
  else .error (.malformedAlternative (String.join (tokens.map Token.display)))

theorem rejectAlternative_ne_ok (tokens : List Token) (p : Production) :
    rejectAlternative tokens ≠ .ok p := by
  intro h
  unfold rejectAlternative at h
  split at h
  · cases h
  · cases h

/-- **Three shapes of tokens are alternatives.** -/
theorem parseAlternative_eq_ok (h : parseAlternative tokens = .ok p) :
    tokens = [.epsilon] ∧ p = .empty ∨ (∃ t, tokens = [.terminal t] ∧ p = .terminal t) ∨
      ∃ t n, tokens = [.terminal t, .nonterminal n] ∧ p = .step t n := by
  -- the match looks at two tokens and at whether there is a third
  rcases tokens with _ | ⟨a, _ | ⟨b, _ | ⟨c, rest⟩⟩⟩
  · cases h
  · cases a with
    | epsilon =>
      cases h
      exact .inl ⟨rfl, rfl⟩
    | terminal t =>
      cases h
      exact .inr (.inl ⟨t, rfl, rfl⟩)
    | arrow | bar | nonterminal => cases h
  · cases a with
    | terminal t =>
      cases b with
      | nonterminal n =>
        cases h
        exact .inr (.inr ⟨t, n, rfl, rfl⟩)
      | arrow | bar | epsilon | terminal => exact absurd h (rejectAlternative_ne_ok _ p)
    | arrow | bar | epsilon | nonterminal => exact absurd h (rejectAlternative_ne_ok [_, b] p)
  · have : parseAlternative (a :: b :: c :: rest) = rejectAlternative (a :: b :: c :: rest) := by
      cases a <;> cases b <;> rfl
    exact absurd (this.symm.trans h) (rejectAlternative_ne_ok _ p)

theorem proper_of_parseAlternative (h : parseAlternative tokens = .ok p)
    (htokens : ∀ token ∈ tokens, token.Proper) : p.Proper := by
  obtain ⟨-, rfl⟩ | ⟨t, rfl, rfl⟩ | ⟨t, n, rfl, rfl⟩ := parseAlternative_eq_ok h
  · trivial
  · exact htokens _ List.mem_cons_self
  · exact ⟨htokens _ List.mem_cons_self, htokens _ (List.mem_cons_of_mem _ List.mem_cons_self)⟩

/-- A rule is a nonterminal, an arrow and alternatives between bars. -/
theorem parseTokens_eq_ok {head : Symbol} {alternatives : List Production}
    (h : parseTokens tokens = .ok (head, alternatives)) :
    ∃ rest, tokens = .nonterminal head :: .arrow :: rest ∧
      (rest.splitOn .bar).mapM parseAlternative = .ok alternatives := by
  unfold parseTokens at h
  split at h
  · rename_i head' rest
    obtain ⟨alts, halts, h⟩ := exists_of_bind_eq_ok h
    cases h
    exact ⟨rest, rfl, halts⟩
  · cases h
  · cases h

theorem proper_of_parseTokens {head : Symbol} {alternatives : List Production}
    (h : parseTokens tokens = .ok (head, alternatives))
    (htokens : ∀ token ∈ tokens, token.Proper) : ProperRule head alternatives := by
  obtain ⟨rest, rfl, halts⟩ := parseTokens_eq_ok h
  refine ⟨htokens _ List.mem_cons_self, fun p hp => ?_⟩
  obtain ⟨piece, hpiece, hparse⟩ := List.exists_of_mem_mapM_ok halts hp
  refine proper_of_parseAlternative hparse fun token htoken => htokens token ?_
  -- a token of an alternative is a token behind the arrow
  have hrest := List.mem_of_mem_splitOn hpiece htoken
  exact List.mem_cons_of_mem _ (List.mem_cons_of_mem _ hrest)

/-- **A rule that is read from a line is proper.** -/
theorem proper_of_parseRule {line : ℕ × List Char} {rule : Rule}
    (h : parseRule line = .ok rule) : ProperRule rule.head rule.alternatives := by
  obtain ⟨number, text⟩ := line
  unfold parseRule at h
  cases hparsed : Token.ofText text >>= parseTokens with
  | error e =>
    simp only [hparsed] at h
    cases h
  | ok parsed =>
    simp only [hparsed] at h
    cases h
    obtain ⟨tokens, htokens, hparsed⟩ := exists_of_bind_eq_ok hparsed
    exact proper_of_parseTokens hparsed (proper_of_mem_ofText htokens)

/-! ### Rules of the same nonterminal -/

/-- The head and the alternatives of an entry come from rules. -/
theorem of_mem_entries {rules : List Rule} {e : Entry} (he : e ∈ entries rules) :
    (∃ rule ∈ rules, rule.head = e.head) ∧
      ∀ p ∈ e.alternatives, ∃ rule ∈ rules, p ∈ rule.alternatives := by
  obtain ⟨head, hhead, rfl⟩ := List.mem_map.1 he
  refine ⟨List.mem_map.1 (List.mem_eraseDups.1 hhead), fun p hp => ?_⟩
  obtain ⟨rule, hrule, hp⟩ := List.mem_flatMap.1 (List.mem_eraseDups.1 hp)
  exact ⟨rule, List.mem_of_mem_filter hrule, hp⟩

/-- A rule has an entry for its head. -/
theorem exists_mem_entries {rules : List Rule} {rule : Rule} (hrule : rule ∈ rules) :
    ∃ e ∈ entries rules, e.head = rule.head := by
  have hhead : rule.head ∈ (rules.map Rule.head).eraseDups :=
    List.mem_eraseDups.2 (List.mem_map.2 ⟨rule, hrule, rfl⟩)
  exact ⟨_, List.mem_map.2 ⟨_, hhead, rfl⟩, rfl⟩

/-- Where no rule about the empty word is broken, only the start symbol derives it. -/
theorem head_eq_of_misplacedEpsilons {start : Symbol} {ruleset : List Entry}
    (h : misplacedEpsilons start ruleset = []) {e : Entry} (he : e ∈ ruleset)
    (hempty : .empty ∈ e.alternatives) : e.head = start := by
  by_contra hne
  have hbad : e ∈ ruleset.filter fun e => e.head != start && e.alternatives.contains .empty := by
    simp [he, hne, hempty]
  rw [List.map_eq_nil_iff.1 h] at hbad
  exact absurd hbad List.not_mem_nil

/-! ### Texts -/

/-- A grammar is made of rules that break none of the rules about the empty word. -/
theorem ofRules_eq_ok {text : String} {start : Symbol} {rules : List Rule}
    (h : ofRules text start rules = .ok g) :
    misplacedEpsilons start (entries rules) = [] ∧ startReentries start (entries rules) = [] ∧
      g = ⟨text, start, (entries rules).map fun e => (e.head, e.alternatives)⟩ := by
  unfold ofRules at h
  dsimp only at h
  split at h
  · rename_i hnone
    obtain ⟨hmisplaced, hreentries⟩ := List.append_eq_nil_iff.1 hnone
    exact ⟨hmisplaced, hreentries, (Except.ok.inj h).symm⟩
  · cases h

/-- A grammar is made of a text with a rule on each line and at least one line. -/
theorem parse_eq_ok {text : String} (h : parse text = .ok g) :
    ∃ first rest, (∀ rule ∈ first :: rest, ∃ line, parseRule line = .ok rule) ∧
      ofRules text first.head (first :: rest) = .ok g := by
  unfold parse at h
  dsimp only at h
  split at h
  · cases h
  · rename_i first rest _ hrules
    refine ⟨first, rest, fun rule hrule => ?_, h⟩
    rw [← hrules] at hrule
    obtain ⟨result, hresult, hok⟩ := List.mem_filterMap.1 hrule
    obtain ⟨line, -, rfl⟩ := List.mem_map.1 hresult
    cases hparsed : parseRule line with
    | error e =>
      rw [hparsed] at hok
      cases hok
    | ok rule' =>
      rw [hparsed] at hok
      exact ⟨line, by rw [hparsed, Option.some.inj hok]⟩
  · cases h

/-- **A grammar that is read from a text is proper.** -/
theorem proper_parse {text : String} (h : parse text = .ok g) : g.Proper := by
  obtain ⟨first, rest, hlines, hg⟩ := parse_eq_ok h
  obtain ⟨hmisplaced, -, rfl⟩ := ofRules_eq_ok hg
  have hrules : ∀ rule ∈ first :: rest, ProperRule rule.head rule.alternatives := by
    intro rule hrule
    obtain ⟨line, hline⟩ := hlines rule hrule
    exact proper_of_parseRule hline
  refine ⟨fun e he => ?_, mem_nonterminals.2 ?_, fun e he hempty => ?_⟩
  · obtain ⟨entry, hentry, rfl⟩ := List.mem_map.1 he
    obtain ⟨⟨rule, hrule, hhead⟩, halts⟩ := of_mem_entries hentry
    refine ⟨?_, fun p hp => ?_⟩
    · show Symbol.isNonterminal entry.head = true
      rw [← hhead]
      exact (hrules rule hrule).head
    · obtain ⟨rule', hrule', hp⟩ := halts p hp
      exact (hrules rule' hrule').alternatives p hp
  · have hfirst : first ∈ first :: rest := List.mem_cons_self
    obtain ⟨entry, hentry, hhead⟩ := exists_mem_entries hfirst
    exact ⟨_, List.mem_map.2 ⟨entry, hentry, rfl⟩, .inl hhead.symm⟩
  · obtain ⟨entry, hentry, rfl⟩ := List.mem_map.1 he
    exact head_eq_of_misplacedEpsilons hmisplaced hentry hempty

end Grammar

end FiniteState
