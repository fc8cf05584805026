import FiniteState.Proofs.Grammar.Canonical

/-!
# Grammars are read as they are written

A grammar is written with a line for each nonterminal, that of the start symbol first.
Each line states the rule that it is written for.  It begins with a nonterminal and
ends in a symbol of its last alternative, so no line continues another one, and the
lines of the text are the productions that are read.  If the grammar has the form that
reading gives it, gathering the alternatives of these rules changes nothing, and the
grammar comes back.

## Main definitions

* `Symbol.Occurs` — the character is a symbol of a grammar.
* `Grammar.lineOf` — the line of a nonterminal.

## Main results

* `Grammar.Canonical.toList_display` — the text consists of the lines of the entries.
* `Grammar.statesRule_lineOf` — a line states the rule that it is written for.
* `Grammar.map_snd_logicalLines` — the lines that are read are those that are written.
* `Grammar.Canonical.parse_display_eq`, `Grammar.Obtainable.parse_display` — **reading a
  grammar that was written gives the grammar**.
-/

namespace FiniteState

/-! ### Spelling -/

namespace Token

variable {text text' : List Char} {tokens tokens' : List Token}

/-- One text after the other spells the tokens of both. -/
theorem Spells.append (h : Spells text tokens) (h' : Spells text' tokens') :
    Spells (text ++ text') (tokens ++ tokens') := by
  induction h with
  | nil => exact h'
  | blank hc _ ih => exact .blank hc ih
  | token token htoken _ ih =>
    rw [List.append_assoc]
    exact .token token htoken ih

/-- A token spells itself. -/
theorem spells_display (token : Token) (h : token.Proper) :
    Spells token.display.toList [token] := by
  have := Spells.token token h .nil
  rwa [List.append_nil] at this

end Token

/-- An alternative spells its tokens. -/
theorem Production.spells_display {p : Production} (h : p.Proper) :
    Token.Spells p.display.toList p.tokens := by
  cases p with
  | empty => exact Token.spells_display .epsilon trivial
  | terminal t => exact Token.spells_display (.terminal t) h
  | step t n =>
    have ht := Token.spells_display (.terminal t) h.1
    have hn := Token.spells_display (.nonterminal n) h.2
    have := ht.append hn
    simpa [Token.display, Production.display, Production.tokens] using this

/-! ### Symbols -/

/-- The character is the marker, a terminal or a nonterminal. -/
def Symbol.Occurs (c : Char) : Prop :=
  c = epsilon ∨ isTerminal c = true ∨ isNonterminal c = true

namespace Symbol.Occurs

variable {c : Char} (h : Symbol.Occurs c)

include h

theorem isBlank_eq_false : Text.isBlank c = false := by
  rcases h with rfl | h | h
  · decide
  · exact isBlank_of_isTerminal h
  · exact isBlank_of_isNonterminal h

theorem ne_bar : c ≠ '|' := by
  rintro rfl
  rcases h with h | h | h <;> cases h

theorem ne_arrowhead : c ≠ '>' := by
  rintro rfl
  rcases h with h | h | h <;> cases h

theorem ne_newline : c ≠ '\n' := by
  rintro rfl
  cases h.isBlank_eq_false

end Symbol.Occurs

theorem Production.occurs_of_mem_display {p : Production} (h : p.Proper) {c : Char}
    (hc : c ∈ p.display.toList) : Symbol.Occurs c := by
  cases p with
  | empty =>
    obtain rfl : c = Symbol.epsilon := by simpa [display] using hc
    exact .inl rfl
  | terminal t =>
    obtain rfl : c = t := by simpa [display] using hc
    exact .inr (.inl h)
  | step t n =>
    have : c = t ∨ c = n := by simpa [display] using hc
    rcases this with rfl | rfl
    · exact .inr (.inl h.1)
    · exact .inr (.inr h.2)

namespace Grammar

open Automaton

variable {g : Grammar} {e : Symbol × List Production} {entries : List (Symbol × List Production)}
  {lines : List (ℕ × List Char)} {text : List Char}

/-! ### Lines -/

/-- The line of a nonterminal and its alternatives. -/
def lineOf (e : Symbol × List Production) : List Char :=
  e.1 :: ' ' :: '-' :: '>' :: ' ' :: [' ', '|', ' '].intercalate (e.2.map (·.display.toList))

/-- Alternatives with bars between them spell their tokens with bars between them. -/
theorem spells_intercalate {alternatives : List Production}
    (h : ∀ p ∈ alternatives, p.Proper) :
    Token.Spells ([' ', '|', ' '].intercalate (alternatives.map (·.display.toList)))
      ([Token.bar].intercalate (alternatives.map Production.tokens)) := by
  have hbar : Token.Spells [' ', '|', ' '] [Token.bar] :=
    .blank (by decide) (.token .bar trivial (.blank (by decide) .nil))
  induction alternatives with
  | nil => exact .nil
  | cons p rest ih =>
    have hp := Production.spells_display (h p List.mem_cons_self)
    by_cases hrest : rest = []
    · subst hrest
      simpa using hp
    · have := ih fun q hq => h q (List.mem_cons_of_mem p hq)
      rw [List.map_cons, List.map_cons, List.intercalate_cons_of_ne_nil (by simpa using hrest),
        List.intercalate_cons_of_ne_nil (by simpa using hrest)]
      exact (hp.append hbar).append this

/-- **A line states the rule that it is written for.** -/
theorem statesRule_lineOf (h : ProperRule e.1 e.2) (hne : e.2 ≠ []) :
    StatesRule (lineOf e) e.1 e.2 := by
  refine ⟨hne, ?_⟩
  have hhead := Token.spells_display (.nonterminal e.1) h.head
  have harrow : Token.Spells [' ', '-', '>', ' '] [Token.arrow] :=
    .blank (by decide) (.token .arrow trivial (.blank (by decide) .nil))
  have := (hhead.append harrow).append (spells_intercalate h.alternatives)
  simpa [Token.display, lineOf] using this

/-- A line ends in a symbol. -/
theorem exists_getLast?_lineOf (h : ProperRule e.1 e.2) (hne : e.2 ≠ []) :
    ∃ c, (lineOf e).getLast? = some c ∧ Symbol.Occurs c := by
  obtain ⟨before, p, hp⟩ := (List.eq_nil_or_concat' e.2).resolve_left hne
  have hproper : p.Proper := h.alternatives p (by simp [hp])
  -- the line ends as its last alternative does
  have hsuffix : p.display.toList <:+ lineOf e := by
    have hlast := List.suffix_intercalate [' ', '|', ' '] (before.map (·.display.toList))
      p.display.toList
    rw [lineOf, hp, List.map_append, List.map_cons, List.map_nil]
    exact hlast.trans (List.suffix_append [e.1, ' ', '-', '>', ' '] _)
  obtain ⟨front, hfront⟩ := hsuffix
  obtain ⟨c, hc⟩ : ∃ c, p.display.toList.getLast? = some c := by
    cases p <;> simp [Production.display]
  refine ⟨c, ?_, Production.occurs_of_mem_display hproper (List.mem_of_getLast? hc)⟩
  rw [← hfront, List.getLast?_append, hc, Option.some_or]

/-- A line is one line. -/
theorem newline_notMem_lineOf (h : ProperRule e.1 e.2) : '\n' ∉ lineOf e := by
  intro hmem
  have hhead : Symbol.Occurs e.1 := .inr (.inr h.head)
  have hmem : '\n' ∈ [' ', '|', ' '].intercalate (e.2.map (·.display.toList)) := by
    simpa [lineOf, hhead.ne_newline.symm] using hmem
  rcases List.mem_of_mem_intercalate hmem with hbar | ⟨piece, hpiece, hmem⟩
  · revert hbar
    decide
  · obtain ⟨p, hp, rfl⟩ := List.mem_map.1 hpiece
    exact (Production.occurs_of_mem_display (h.alternatives p hp) hmem).ne_newline rfl

/-- A line has no blanks around it. -/
theorem trim_lineOf (h : ProperRule e.1 e.2) (hne : e.2 ≠ []) :
    Text.trim (lineOf e) = lineOf e := by
  refine Text.trim_eq_self (fun c hc => ?_) fun c hc => ?_
  · obtain rfl := Option.some.inj hc
    exact Symbol.isBlank_of_isNonterminal h.head
  · obtain ⟨d, hd, hoccurs⟩ := exists_getLast?_lineOf h hne
    rw [hd] at hc
    obtain rfl := Option.some.inj hc
    exact hoccurs.isBlank_eq_false

/-- **No line continues another one.** -/
theorem continues_lineOf {e' : Symbol × List Production} (h : ProperRule e.1 e.2) (hne : e.2 ≠ [])
    (h' : ProperRule e'.1 e'.2) : continues (lineOf e) (lineOf e') = false := by
  obtain ⟨c, hc, hoccurs⟩ := exists_getLast?_lineOf h hne
  have hhead : Symbol.Occurs e'.1 := .inr (.inr h'.head)
  have hstart : (lineOf e').head? ≠ some '|' := by
    intro hbar
    exact hhead.ne_bar (Option.some.inj hbar)
  have hend : (lineOf e).getLast? ≠ some '|' := by
    intro hbar
    rw [hc] at hbar
    exact hoccurs.ne_bar (Option.some.inj hbar)
  have harrow : ¬ ['-', '>'] <:+ lineOf e := by
    intro hsuffix
    obtain ⟨front, hfront⟩ := hsuffix
    rw [← hfront, List.getLast?_append, show ['-', '>'].getLast? = some '>' from rfl,
      Option.some_or] at hc
    exact hoccurs.ne_arrowhead (Option.some.inj hc.symm)
  rw [← List.isSuffixOf_iff_suffix, Bool.not_eq_true] at harrow
  simp [continues, hstart, hend, harrow]

/-! ### Texts -/

/-- **The lines that are read are those that are written.** -/
theorem map_snd_logicalLines (h : ∀ e ∈ entries, ProperRule e.1 e.2 ∧ e.2 ≠ []) :
    (logicalLines (entries.flatMap fun e => lineOf e ++ ['\n'])).map Prod.snd =
      entries.map lineOf := by
  have hsplit : (entries.flatMap fun e => lineOf e ++ ['\n']).splitOn '\n' =
      entries.map lineOf ++ [[]] := by
    rw [← List.flatMap_map lineOf (· ++ ['\n'])]
    refine List.splitOn_flatMap_concat fun line hline => ?_
    obtain ⟨e, he, rfl⟩ := List.mem_map.1 hline
    exact newline_notMem_lineOf (h e he).1
  have hphysical : (physicalLines (entries.flatMap fun e => lineOf e ++ ['\n'])).map Prod.snd =
      entries.map lineOf := by
    have htrim : (entries.map lineOf).map Text.trim = entries.map lineOf := by
      rw [List.map_map]
      exact List.map_congr_left fun e he => trim_lineOf (h e he).1 (h e he).2
    have hkept : (entries.map lineOf).filter (fun line => !line.isEmpty) = entries.map lineOf := by
      rw [List.filter_eq_self]
      intro line hline
      obtain ⟨e, -, rfl⟩ := List.mem_map.1 hline
      rfl
    rw [map_snd_physicalLines, hsplit, List.map_append, htrim, List.filter_append, hkept]
    exact List.append_nil _
  have hwritten : ∀ line ∈ physicalLines (entries.flatMap fun e => lineOf e ++ ['\n']),
      ∃ e ∈ entries, lineOf e = line.2 := by
    intro line hline
    have hmem := List.mem_map_of_mem (f := Prod.snd) hline
    rw [hphysical] at hmem
    exact List.mem_map.1 hmem
  rw [logicalLines_of_apart, hphysical]
  intro line hline next hnext
  obtain ⟨e, he, heq⟩ := hwritten line hline
  obtain ⟨e', he', heq'⟩ := hwritten next hnext
  rw [← heq, ← heq']
  exact continues_lineOf (h e he).1 (h e he).2 (h e' he').1

/-- Lines that are written for some entries say the rules of these entries. -/
theorem exists_rules_of_lines (h : ∀ e ∈ entries, ProperRule e.1 e.2 ∧ e.2 ≠ [])
    (hlines : lines.map Prod.snd = entries.map lineOf) :
    ∃ rules, List.Forall₂ (fun line (rule : Rule) => rule.StatedOn line) lines rules ∧
      rules.map (fun rule => (rule.head, rule.alternatives)) = entries := by
  induction entries generalizing lines with
  | nil =>
    rw [List.map_eq_nil_iff.1 hlines]
    exact ⟨[], .nil, rfl⟩
  | cons e entries ih =>
    obtain ⟨line, rest, rfl, hline, hrest⟩ := List.map_eq_cons_iff.1 hlines
    obtain ⟨rules, hrules, hentries⟩ := ih (fun e' he' => h e' (List.mem_cons_of_mem e he')) hrest
    have he := h e List.mem_cons_self
    refine ⟨⟨line.1, e.1, e.2⟩ :: rules, .cons ⟨rfl, ?_⟩ hrules, by rw [List.map_cons, hentries]⟩
    rw [hline]
    exact statesRule_lineOf he.1 he.2

/-- Gathering changes nothing where each nonterminal has one rule, and this does not repeat
an alternative. -/
theorem gather_eq_self {rules : List Rule} (hheads : (rules.map Rule.head).Nodup)
    (halternatives : ∀ rule ∈ rules, rule.alternatives.Nodup) :
    gather rules = rules.map fun rule => (rule.head, rule.alternatives) := by
  rw [gather, List.eraseDups_of_nodup hheads, List.map_map]
  refine List.map_congr_left fun rule hrule => ?_
  have hone := List.filter_value_of_mem hheads hrule
  simp only [Function.comp_apply, hone, List.flatMap_cons, List.flatMap_nil, List.append_nil,
    List.eraseDups_of_nodup (halternatives rule hrule)]

/-! ### Grammars -/

namespace Canonical

variable (h : g.Canonical)

include h

/-- The heads are written in the order in which they stand. -/
theorem start_cons_others :
    g.start :: (g.productions.map Prod.fst).filter (· != g.start) =
      g.productions.map Prod.fst := by
  obtain ⟨alternatives, rest, hproductions⟩ := h.start_first
  have hnd := h.heads_nodup
  rw [hproductions, List.map_cons, List.nodup_cons] at hnd
  have hkept : (rest.map Prod.fst).filter (· != g.start) = rest.map Prod.fst := by
    rw [List.filter_eq_self]
    intro n hn
    have hne : n ≠ g.start := fun heq => hnd.1 (heq ▸ hn)
    simpa using hne
  rw [hproductions, List.map_cons, List.filter_cons, if_neg (by simp), hkept]

/-- A nonterminal is written with its alternatives. -/
theorem toList_displayHead (he : e ∈ g.productions) :
    (g.displayHead e.1).toList = lineOf e ++ ['\n'] := by
  have halternatives : g.alternatives e.1 = e.2 := by
    rw [alternatives, List.lookup_eq_some_of_mem h.heads_nodup he, Option.getD_some]
  have hne := h.alternatives_ne_nil e he
  rw [displayHead, halternatives]
  cases halts : e.2 with
  | nil => exact absurd halts hne
  | cons p rest =>
    simp [lineOf, halts, String.toList_append, String.toList_intercalate, List.map_map,
      Function.comp_def]

/-- **The text of a grammar consists of the lines of its entries.** -/
theorem toList_display :
    g.display.toList = g.productions.flatMap fun e => lineOf e ++ ['\n'] := by
  have hheads := h.start_cons_others
  have hlines : ∀ e ∈ g.productions, (g.displayHead e.1).toList = lineOf e ++ ['\n'] :=
    fun e he => h.toList_displayHead he
  rw [display, hheads, String.toList_join, List.map_map, List.flatMap_map]
  exact List.flatMap_congr fun e he => hlines e he

/-- **Reading a grammar that was written gives the grammar.** -/
theorem parse_display_eq : parse g.display = .ok ⟨g.display, g.start, g.productions⟩ := by
  have hrules : ∀ e ∈ g.productions, ProperRule e.1 e.2 ∧ e.2 ≠ [] := fun e he =>
    ⟨h.rule e he, h.alternatives_ne_nil e he⟩
  have hlines := map_snd_logicalLines hrules
  rw [← h.toList_display] at hlines
  obtain ⟨rules, hread, hentries⟩ := exists_rules_of_lines hrules hlines
  have hmem : ∀ rule ∈ rules, (rule.head, rule.alternatives) ∈ g.productions := by
    intro rule hrule
    rw [← hentries]
    exact List.mem_map.2 ⟨rule, hrule, rfl⟩
  have hgather : gather rules = g.productions := by
    rw [gather_eq_self, hentries]
    · have hnd := h.heads_nodup
      rw [← hentries, List.map_map] at hnd
      exact hnd
    · exact fun rule hrule => h.alternatives_nodup _ (hmem rule hrule)
  have hepsilon : EpsilonRules g.start rules := by
    refine ⟨fun rule hrule hempty => h.start_of_empty _ (hmem rule hrule) hempty, ?_⟩
    intro hnullable rule hrule t
    obtain ⟨rule', hrule', -, hempty⟩ := hnullable
    exact h.not_reentered ⟨_, hmem rule' hrule', hempty⟩ _ (hmem rule hrule) t
  obtain ⟨alternatives, rest, hproductions⟩ := h.start_first
  rw [← hentries] at hproductions
  obtain ⟨first, rest', rfl, hfirst, -⟩ := List.map_eq_cons_iff.1 hproductions
  have hstart : first.head = g.start := congrArg Prod.fst hfirst
  rw [parse_eq_ok_iff]
  exact ⟨first, rest', hread, hstart ▸ hepsilon, by rw [hgather, hstart]⟩

end Canonical

theorem text_ofProductions (start : Symbol) (rules : List (Symbol × List Production)) :
    (ofProductions start rules).text = (ofProductions start rules).display := rfl

/-- A grammar that is read off an automaton has its own display as its text. -/
theorem text_ofAutomaton {fa : Automaton} (hg : ofAutomaton fa = .ok g) : g.text = g.display := by
  obtain ⟨-, -, -, initial, -, hg⟩ := ofAutomaton_eq_ok hg
  rcases ofTrimmed_eq_ok hg with ⟨-, rfl⟩ | ⟨-, -, -, rfl⟩ | ⟨-, -, rfl⟩
  · exact text_ofProductions _ _
  · exact text_ofProductions _ _
  · exact text_ofProductions _ _

/-- **Reading a grammar that was written gives the grammar**, with the text that was
written.  A grammar that was read off an automaton has that text already. -/
theorem Obtainable.parse_display (h : g.Obtainable) :
    ∃ g', Grammar.parse g.display = .ok g' ∧ g'.start = g.start ∧ g'.nonterminals = g.nonterminals ∧
      g'.terminals = g.terminals ∧ g'.productions = g.productions ∧
      Draft.ofText g.display = .ofGrammar g' ∧
      ∀ fa, Grammar.ofAutomaton fa = .ok g → g.text = g.display ∧ g' = g := by
  have hparse := h.canonical.parse_display_eq
  refine ⟨_, hparse, rfl, rfl, rfl, rfl, ?_, fun fa hg => ?_⟩
  · rw [Draft.ofText, hparse]
    rfl
  · have htext := text_ofAutomaton hg
    exact ⟨htext, by rw [← htext]⟩

/-- A grammar over several lines with two rules for `S` is written with one line for each
nonterminal, and the grammar of `a*`, with its fresh start symbol, is its own text. -/
theorem Obtainable.parse_display_joined :
    (∃ g, Grammar.parse "S -> aA |\n  b\n\nA -> b\nS -> b | &" = .ok g ∧
      g.display = "S -> aA | b | &\nA -> b\n" ∧
      ∃ g', Grammar.parse g.display = .ok g' ∧ g'.productions = g.productions) ∧
    ∃ g, Grammar.ofAutomaton (Regex.PositionTable.ofExpr (.star (.letter 'a'))).automaton = .ok g ∧
      g.display = "B -> a | aA | &\nA -> a | aA\n" ∧ Grammar.parse g.display = .ok g := by
  have hread : Grammar.parse "S -> aA |\n  b\n\nA -> b\nS -> b | &" =
      .ok ⟨"S -> aA |\n  b\n\nA -> b\nS -> b | &", 'S',
        [('S', [.step 'a' 'A', .terminal 'b', .empty]), ('A', [.terminal 'b'])]⟩ := rfl
  have hexpr : Regex.parse ['a', '*'] = .ok (.star (.letter 'a')) := rfl
  have hfa := obtainable_automaton hexpr
  have hg : Grammar.ofAutomaton (Regex.PositionTable.ofExpr (.star (.letter 'a'))).automaton =
      .ok ⟨"B -> a | aA | &\nA -> a | aA\n", 'B',
        [('B', [.terminal 'a', .step 'a' 'A', .empty]),
          ('A', [.terminal 'a', .step 'a' 'A'])]⟩ := rfl
  constructor
  · obtain ⟨g', hparse, -, -, -, hproductions, -⟩ := (Obtainable.parse hread).parse_display
    exact ⟨_, hread, rfl, g', hparse, hproductions⟩
  · obtain ⟨g', hparse, -, -, -, -, -, hsame⟩ := (Obtainable.ofAutomaton hfa hg).parse_display
    obtain ⟨-, rfl⟩ := hsame _ hg
    exact ⟨_, hg, rfl, hparse⟩

end Grammar

end FiniteState
