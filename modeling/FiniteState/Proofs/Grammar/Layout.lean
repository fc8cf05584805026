import Mathlib.Logic.Relation
import FiniteState.Proofs.Grammar.Lexeme
import FiniteState.Proofs.Grammar.Parse

/-!
# The layout of a grammar does not matter

A blank may be put anywhere into the text of a grammar but between the two characters of an
arrow, and a line may be broken before and after a bar and after an arrow.  Neither changes
what is seen of the lines that are read, well formed or not: a blank is not seen, and a line
that is broken there is joined again.  From what is seen follow the rules and the errors of the
lines, up to their numbers, and from the rules the grammar or the errors about the empty word.

## Main definitions

* `Grammar.LayoutStep` — a blank or a line break is put in where it does not matter.
* `Grammar.content` — what is seen of the lines that are read.
* `Grammar.Alike` — two results of reading, up to texts and line numbers.

## Main results

* `Grammar.LayoutStep.content_eq` — **the layout does not change what is seen**.
* `Grammar.alike_of_content_eq` — what is seen decides the result.
* `Grammar.alike_of_layout` — **the layout does not change the result**.
-/

namespace FiniteState

/-! ### What is seen of broken lines -/

namespace Lexeme

variable {x y current : List Lexeme} {before after : List (List Lexeme)}

/-- A line that is broken in two is joined again, whatever comes before and after it.  The
induction is on the lines before. -/
theorem join_break (hx : x ≠ []) (hcontinues : continues x y = true) :
    join current (before ++ x :: y :: after) = join current (before ++ (x ++ y) :: after) := by
  induction before generalizing current with
  | nil =>
    have hfirst : continues current (x ++ y) = continues current x := by
      rw [continues, continues, List.head?_append_of_ne_nil _ hx]
    have hlast : continues (current ++ x) y = true := by
      rw [← hcontinues, continues, continues, List.getLast?_append_of_ne_nil _ hx]
    simp only [List.nil_append, join, hfirst, hlast, hcontinues, if_true, List.append_assoc]
  | cons line before ih => simp only [List.cons_append, join, ih]

/-- A line in which nothing is seen is dropped. -/
theorem passages_drop (before after : List (List Lexeme)) :
    passages (before ++ [] :: after) = passages (before ++ after) := by
  unfold passages
  rw [List.filter_append, List.filter_append, List.filter_cons_of_neg (by simp)]

/-- What is seen of a broken line is joined again, also if all of it stands in one part. -/
theorem passages_break (hcontinues : continues x y = true) :
    passages (before ++ x :: y :: after) = passages (before ++ (x ++ y) :: after) := by
  -- a part in which nothing is seen is dropped, and the other one is the whole line
  by_cases hx : x = []
  · rw [hx, passages_drop, List.nil_append]
  by_cases hy : y = []
  · rw [hy, List.append_nil, List.append_cons, passages_drop, List.append_assoc,
      List.singleton_append]
  unfold passages
  rw [List.filter_append, List.filter_append, List.filter_cons_of_pos (by simpa using hx),
    List.filter_cons_of_pos (by simpa using hy), List.filter_cons_of_pos (by simp [hx])]
  cases before.filter fun line => !line.isEmpty with
  | nil =>
    show join x (y :: _) = join (x ++ y) _
    rw [join, if_pos hcontinues]
  | cons first before => exact join_break hx hcontinues

/-! ### Where lines may be broken -/

variable {text : List Char}

theorem continues_bar_cons (previous : List Lexeme) :
    continues previous (ofText ('|' :: text)) = true := by
  rw [ofText_cons (by simp)]
  rfl

theorem continues_concat_bar (line : List Lexeme) :
    continues (ofText (text ++ ['|'])) line = true := by
  rw [ofText_append (by simp), continues, show ofText ['|'] = [.token .bar] from rfl,
    List.getLast?_concat, beq_self_eq_true, Bool.or_true, Bool.true_or]

theorem continues_append_arrow (line : List Lexeme) :
    continues (ofText (text ++ ['-', '>'])) line = true := by
  rw [ofText_append (by simp), continues, show ofText ['-', '>'] = [.token .arrow] from rfl,
    List.getLast?_concat, beq_self_eq_true, Bool.or_true]

end Lexeme

namespace Grammar

/-! ### The layout of a text -/

/-- **A blank or a line break is put in where it does not matter.** -/
inductive LayoutStep : List Char → List Char → Prop
  /-- A blank is put in, but not into an arrow. -/
  | blank {c : Char} {u v : List Char} : Text.isBlank c = true → c ≠ '\n' →
    ¬ (u.getLast? = some '-' ∧ v.head? = some '>') → LayoutStep (u ++ v) (u ++ c :: v)
  /-- The line is broken before a bar. -/
  | breakBeforeBar (u v : List Char) : LayoutStep (u ++ '|' :: v) (u ++ '\n' :: '|' :: v)
  /-- The line is broken after a bar. -/
  | breakAfterBar (u v : List Char) : LayoutStep (u ++ '|' :: v) (u ++ '|' :: '\n' :: v)
  /-- The line is broken after an arrow. -/
  | breakAfterArrow (u v : List Char) :
    LayoutStep (u ++ '-' :: '>' :: v) (u ++ '-' :: '>' :: '\n' :: v)

/-- What is seen of the lines that are read. -/
def content (text : List Char) : List (List Lexeme) :=
  Lexeme.passages ((text.splitOn '\n').map Lexeme.ofText)

variable {u v x y : List Char} {before after : List (List Char)}

/-- The last line of a text ends as the text does, if there is something in it. -/
theorem getLast?_of_splitOn {c : Char} (hu : u.splitOn '\n' = before ++ [x])
    (hc : x.getLast? = some c) : u.getLast? = some c := by
  have hwhole : ['\n'].intercalate (u.splitOn '\n') = u := List.intercalate_splitOn '\n'
  obtain ⟨front, hfront⟩ := List.suffix_intercalate ['\n'] before x
  rw [← hwhole, hu, ← hfront, List.getLast?_append, hc, Option.some_or]

/-- The first line of a text begins as the text does, if there is something in it. -/
theorem head?_of_splitOn {c : Char} (hv : v.splitOn '\n' = y :: after)
    (hc : y.head? = some c) : v.head? = some c := by
  have hwhole : ['\n'].intercalate (v.splitOn '\n') = v := List.intercalate_splitOn '\n'
  rw [← hwhole, hv]
  cases after with
  | nil => rwa [List.intercalate_singleton]
  | cons next after =>
    rw [List.intercalate_cons_cons, List.head?_append, List.head?_append, hc]
    rfl

/-- What is seen stays the same when a line is broken where the second part continues the
first one. -/
theorem content_break (hu : u.splitOn '\n' = before ++ [x]) (hv : v.splitOn '\n' = y :: after)
    (happart : ¬ (x.getLast? = some '-' ∧ y.head? = some '>'))
    (hcontinues : Lexeme.continues (Lexeme.ofText x) (Lexeme.ofText y) = true) :
    content (u ++ '\n' :: v) = content (u ++ v) := by
  have hboth : (u ++ '\n' :: v).splitOn '\n' = u.splitOn '\n' ++ v.splitOn '\n' :=
    List.splitOnP_append_cons u v rfl
  rw [content, content, hboth, List.splitOn_append_of_eq hu hv, hu, hv, List.append_assoc]
  simp only [List.singleton_append, List.map_append, List.map_cons,
    Lexeme.ofText_append happart]
  exact Lexeme.passages_break hcontinues

/-- **The layout does not change what is seen of the lines that are read.** -/
theorem LayoutStep.content_eq {text text' : List Char} (h : LayoutStep text text') :
    content text' = content text := by
  cases h with
  | @blank c u v hblank hnewline happart =>
    obtain ⟨before, x, hu⟩ := List.exists_splitOn_eq_concat '\n' u
    obtain ⟨y, after, hv⟩ := List.exists_splitOn_eq_cons '\n' v
    have hcv : (c :: v).splitOn '\n' = (c :: y) :: after := by
      rw [List.splitOn_cons_eq_if_modifyHead, hv, if_neg (by simpa using hnewline)]
      rfl
    have hline : Lexeme.ofText (x ++ c :: y) = Lexeme.ofText (x ++ y) := by
      rw [Lexeme.ofText_append_cons_blank hblank, Lexeme.ofText_append]
      rintro ⟨hlast, hhead⟩
      exact happart ⟨getLast?_of_splitOn hu hlast, head?_of_splitOn hv hhead⟩
    rw [content, content, List.splitOn_append_of_eq hu hv, List.splitOn_append_of_eq hu hcv]
    simp only [List.map_append, List.map_cons, hline]
  | breakBeforeBar u v =>
    obtain ⟨before, x, hu⟩ := List.exists_splitOn_eq_concat '\n' u
    obtain ⟨y, after, hv⟩ := List.exists_splitOn_eq_cons '\n' v
    have hbar : ('|' :: v).splitOn '\n' = ('|' :: y) :: after := by
      rw [List.splitOn_cons_eq_if_modifyHead, hv]
      rfl
    exact content_break hu hbar (by simp) (Lexeme.continues_bar_cons _)
  | breakAfterBar u v =>
    obtain ⟨before, x, hu⟩ := List.exists_splitOn_eq_concat '\n' u
    obtain ⟨y, after, hv⟩ := List.exists_splitOn_eq_cons '\n' v
    have hbar : (u ++ ['|']).splitOn '\n' = before ++ [x ++ ['|']] :=
      List.splitOn_append_of_eq hu rfl
    rw [List.append_cons u '|' ('\n' :: v), List.append_cons u '|' v]
    exact content_break hbar hv (by simp) (Lexeme.continues_concat_bar _)
  | breakAfterArrow u v =>
    obtain ⟨before, x, hu⟩ := List.exists_splitOn_eq_concat '\n' u
    obtain ⟨y, after, hv⟩ := List.exists_splitOn_eq_cons '\n' v
    have harrow : (u ++ ['-', '>']).splitOn '\n' = before ++ [x ++ ['-', '>']] :=
      List.splitOn_append_of_eq hu rfl
    have hbroken : u ++ '-' :: '>' :: '\n' :: v = u ++ ['-', '>'] ++ '\n' :: v := by simp
    have hwhole : u ++ '-' :: '>' :: v = u ++ ['-', '>'] ++ v := by simp
    rw [hbroken, hwhole]
    exact content_break harrow hv (by simp) (Lexeme.continues_append_arrow _)

/-! ### What is seen decides the result -/

/-- The nonterminal of a rule and its alternatives, without the line. -/
def Rule.body (rule : Rule) : Symbol × List Production := (rule.head, rule.alternatives)

/-- The rule of a line, or why it has none, without the number of the line. -/
def unnumbered :
    Except (Located GrammarError) Rule → Except GrammarError (Symbol × List Production)
  | .ok rule => .ok rule.body
  | .error e => .error e.cause

/-- What is seen of a line decides its rule, but for the number. -/
theorem unnumbered_parseRule (line : ℕ × List Char) :
    unnumbered (parseRule line) = (Lexeme.ofText line.2).mapM Lexeme.read >>= parseTokens := by
  rw [Lexeme.mapM_read_ofText]
  cases hparsed : Token.ofText line.2 >>= parseTokens with
  | ok parsed => rw [parseRule_of_ok hparsed]; rfl
  | error cause => rw [parseRule_of_error hparsed]; rfl

theorem map_unnumbered_parseRule (text : List Char) :
    ((logicalLines text).map parseRule).map unnumbered =
      (content text).map fun seen => seen.mapM Lexeme.read >>= parseTokens := by
  rw [content, ← map_ofText_logicalLines, List.map_map, List.map_map]
  exact List.map_congr_left fun line _ => unnumbered_parseRule line

section Results

variable (results : List (Except (Located GrammarError) Rule))

theorem map_cause_failures :
    (failures results).map Located.cause = failures (results.map unnumbered) := by
  rw [failures, failures, List.map_filterMap, List.filterMap_map]
  exact List.filterMap_congr fun result _ => by cases result <;> rfl

theorem map_body_successes :
    (successes results).map Rule.body = successes (results.map unnumbered) := by
  rw [successes, successes, List.map_filterMap, List.filterMap_map]
  exact List.filterMap_congr fun result _ => by cases result <;> rfl

end Results

/-- **The two results of reading are alike**: the same grammar up to its text, or the same
errors up to where they are reported. -/
def Alike : Except (List (Located GrammarError)) Grammar →
    Except (List (Located GrammarError)) Grammar → Prop
  | .ok g, .ok h => g.start = h.start ∧ g.nonterminals = h.nonterminals ∧
    g.terminals = h.terminals ∧ g.productions = h.productions
  | .error errors, .error errors' => errors.map Located.cause = errors'.map Located.cause
  | _, _ => False

/-- The causes of the errors about the empty word, from the alternatives of the nonterminals. -/
def epsilonCauses (start : Symbol) (bodies : List (Symbol × List Production)) :
    List GrammarError :=
  (bodies.filter fun body => body.1 != start && body.2.contains .empty).map
      (fun body => .epsilonOutsideStart body.1) ++
    if bodies.any fun body => body.1 == start && body.2.contains .empty then
      (bodies.filter fun body => body.2.any fun p => p.nonterminal? == some start).map
        fun body => .reentersNullableStart body.1
    else []

theorem map_cause_epsilonErrors (start : Symbol) (ruleset : List Entry) :
    (misplacedEpsilons start ruleset ++ startReentries start ruleset).map Located.cause =
      epsilonCauses start (ruleset.map fun e => (e.head, e.alternatives)) := by
  rw [List.map_append, epsilonCauses, List.filter_map, List.filter_map, List.any_map]
  refine congrArg₂ (· ++ ·) ?_ ?_
  · rw [misplacedEpsilons, List.map_map, List.map_map]
    rfl
  · rw [startReentries, apply_ite (List.map Located.cause), List.map_map, List.map_map]
    rfl

section Rules

variable {text text' : String} {rules rules' : List Rule}

/-- The alternatives of the nonterminals do not depend on the lines of the rules. -/
theorem gather_congr (h : rules.map Rule.body = rules'.map Rule.body) :
    gather rules = gather rules' := by
  have hbodies : ∀ rules : List Rule, gather rules =
      ((rules.map Rule.body).map Prod.fst).eraseDups.map fun head =>
        (head, (((rules.map Rule.body).filter fun body => body.1 == head).flatMap
          Prod.snd).eraseDups) := by
    intro rules
    simp only [List.map_map, List.filter_map, List.flatMap_map]
    rfl
  rw [hbodies, hbodies, h]

theorem alike_ofRules (start : Symbol) (h : rules.map Rule.body = rules'.map Rule.body) :
    Alike (ofRules text start rules) (ofRules text' start rules') := by
  have hgather := gather_congr h
  rw [← map_entries, ← map_entries] at hgather
  have hcauses := map_cause_epsilonErrors start (entries rules)
  rw [hgather, ← map_cause_epsilonErrors] at hcauses
  unfold ofRules
  dsimp only
  cases herrors :
    misplacedEpsilons start (entries rules) ++ startReentries start (entries rules) with
  | nil =>
    rw [herrors] at hcauses
    rw [List.map_eq_nil_iff.1 hcauses.symm, hgather]
    exact ⟨rfl, rfl, rfl, rfl⟩
  | cons e errors =>
    rw [herrors] at hcauses
    obtain ⟨e', errors', herrors', -, -⟩ := List.map_eq_cons_iff.1 hcauses.symm
    rw [herrors'] at hcauses ⊢
    exact hcauses

end Rules

/-- **What is seen of the lines decides the result.** -/
theorem alike_of_content_eq {text text' : String}
    (h : content text.toList = content text'.toList) : Alike (parse text) (parse text') := by
  have hresults : ((logicalLines text.toList).map parseRule).map unnumbered =
      ((logicalLines text'.toList).map parseRule).map unnumbered := by
    rw [map_unnumbered_parseRule, map_unnumbered_parseRule, h]
  have hfailures := map_cause_failures ((logicalLines text.toList).map parseRule)
  rw [hresults, ← map_cause_failures] at hfailures
  have hsuccesses := map_body_successes ((logicalLines text.toList).map parseRule)
  rw [hresults, ← map_body_successes] at hsuccesses
  unfold parse
  dsimp only
  cases hfail : failures ((logicalLines text.toList).map parseRule) with
  | cons e errors =>
    rw [hfail] at hfailures
    obtain ⟨e', errors', hfail', -, -⟩ := List.map_eq_cons_iff.1 hfailures.symm
    rw [hfail'] at hfailures ⊢
    exact hfailures
  | nil =>
    rw [hfail] at hfailures
    rw [List.map_eq_nil_iff.1 hfailures.symm]
    cases hsuccess : successes ((logicalLines text.toList).map parseRule) with
    | nil =>
      rw [hsuccess] at hsuccesses
      rw [List.map_eq_nil_iff.1 hsuccesses.symm]
      rfl
    | cons first rules =>
      rw [hsuccess] at hsuccesses
      obtain ⟨first', rules', hsuccess', hfirst, -⟩ := List.map_eq_cons_iff.1 hsuccesses.symm
      rw [hsuccess'] at hsuccesses ⊢
      have hhead : first'.head = first.head := congrArg Prod.fst hfirst
      dsimp only
      rw [hhead]
      exact alike_ofRules first.head hsuccesses

/-- **The layout of a text does not change whether it is a grammar, which grammar it is and what
is wrong with it.** -/
theorem alike_of_layout (text text' : String)
    (h : Relation.EqvGen LayoutStep text.toList text'.toList) :
    Alike (parse text) (parse text') := by
  have hcontent : ∀ {u v : List Char}, Relation.EqvGen LayoutStep u v → content u = content v := by
    intro u v huv
    induction huv with
    | rel u v hstep => exact hstep.content_eq.symm
    | refl u => rfl
    | symm u v _ ih => exact ih.symm
    | trans u v w _ _ ih ih' => exact ih.trans ih'
  exact alike_of_content_eq (hcontent h)

/-- A rule is broken after its arrow and after its bar, where a blank is put in before, and a line
that is no rule is broken before its bar.  The grammar and the error stay. -/
theorem alike_of_layout_broken :
    Relation.EqvGen LayoutStep "S -> aA|b".toList "S ->\n aA |\nb".toList ∧
      Grammar.parse "S -> aA|b" =
        .ok ⟨"S -> aA|b", 'S', [('S', [.step 'a' 'A', .terminal 'b'])]⟩ ∧
      Alike (Grammar.parse "S -> aA|b") (Grammar.parse "S ->\n aA |\nb") ∧
      Grammar.parse "S - a | b" = .error [⟨.onLine 1, .unexpectedCharacter '-'⟩] ∧
      Alike (Grammar.parse "S - a | b") (Grammar.parse "S - a \n| b") := by
  have harrow : LayoutStep "S -> aA|b".toList "S ->\n aA|b".toList :=
    .breakAfterArrow "S ".toList " aA|b".toList
  have hblank : LayoutStep "S ->\n aA|b".toList "S ->\n aA |b".toList :=
    .blank (c := ' ') (u := "S ->\n aA".toList) (v := "|b".toList)
      (by decide) (by decide) (by decide)
  have hbar : LayoutStep "S ->\n aA |b".toList "S ->\n aA |\nb".toList :=
    .breakAfterBar "S ->\n aA ".toList "b".toList
  have hmalformed : LayoutStep "S - a | b".toList "S - a \n| b".toList :=
    .breakBeforeBar "S - a ".toList " b".toList
  have hsteps : Relation.EqvGen LayoutStep "S -> aA|b".toList "S ->\n aA |\nb".toList :=
    ((Relation.EqvGen.rel _ _ harrow).trans _ _ _ (.rel _ _ hblank)).trans _ _ _ (.rel _ _ hbar)
  have hparse : Grammar.parse "S -> aA|b" =
      .ok ⟨"S -> aA|b", 'S', [('S', [.step 'a' 'A', .terminal 'b'])]⟩ := rfl
  have herror : Grammar.parse "S - a | b" = .error [⟨.onLine 1, .unexpectedCharacter '-'⟩] := rfl
  have hgrammar := alike_of_layout "S -> aA|b" "S ->\n aA |\nb" hsteps
  have herrors := alike_of_layout "S - a | b" "S - a \n| b" (.rel _ _ hmalformed)
  exact ⟨hsteps, hparse, hgrammar, herror, herrors⟩

end Grammar

end FiniteState
