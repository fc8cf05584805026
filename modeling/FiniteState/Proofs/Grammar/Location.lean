import FiniteState.Proofs.Grammar.Parse

/-!
# Where the rules about the empty word are reported

The productions of a nonterminal may stand on any lines of a text.  They are gathered in one
entry, which keeps one line, that of the first of them, and a rule about the empty word that
an entry breaks is reported there.  Which of the productions breaks the rule is not looked
at.

No two productions begin on the same line.  So the line that is reported is that of a
production which breaks the rule if the first production of the nonterminal does, and
otherwise it is a line on which nothing is wrong.

## Main definitions

* `Grammar.Breaks` — the production breaks the rule that an error speaks of.

## Main results

* `Grammar.pairwise_logicalLines` — **the line numbers of the productions increase**.
* `Grammar.exists_own_of_mem_entries` — an entry has the line of the first production.
* `Grammar.semantic_error_location` — **where an error about the empty word is reported**.
* `Grammar.reported_on_innocent_line` — a text with an error on a line where nothing is wrong.
-/

namespace FiniteState.Grammar

variable {text : String} {start head : Symbol} {rules : List Rule} {rule rule' own : Rule}
  {p : Production} {entry : Entry} {e : Located GrammarError}
  {errors : List (Located GrammarError)}

/-! ### Line numbers -/

theorem pairwise_physicalLines (text : List Char) :
    ((physicalLines text).map Prod.fst).Pairwise (· < ·) := by
  have hkept : ∀ lines : List (List Char × ℕ),
      ((lines.filterMap fun line =>
        if line.1.isEmpty then none else some (line.2, line.1)).map Prod.fst).Sublist
          (lines.map Prod.snd) := by
    intro lines
    induction lines with
    | nil => exact .refl _
    | cons line lines ih =>
      rw [List.filterMap_cons]
      by_cases hempty : line.1.isEmpty = true
      · rw [if_pos hempty]
        exact ih.cons line.2
      · rw [if_neg hempty]
        exact ih.cons_cons line.2
  have hnumbers : ((((text.splitOn '\n').map Text.trim).zipIdx 1).map Prod.snd).Pairwise
      (· < ·) := by
    rw [List.zipIdx_map_snd]
    exact List.pairwise_lt_range'
  exact hnumbers.sublist (hkept _)

/-- Joining lines drops the numbers of those that are joined to the one before. -/
theorem sublist_joinLines (current : ℕ × List Char) (rest : List (ℕ × List Char)) :
    ((joinLines current rest).map Prod.fst).Sublist ((current :: rest).map Prod.fst) := by
  induction rest generalizing current with
  | nil => exact .refl _
  | cons line rest ih =>
    rw [joinLines_cons]
    split
    · exact (ih _).trans ((List.sublist_cons_self line.1 _).cons_cons current.1)
    · exact (ih line).cons_cons current.1

/-- **The line numbers of the productions increase.** -/
theorem pairwise_logicalLines (text : List Char) :
    ((logicalLines text).map Prod.fst).Pairwise (· < ·) := by
  have hphysical := pairwise_physicalLines text
  rw [logicalLines]
  cases hlines : physicalLines text with
  | nil => exact .nil
  | cons first rest =>
    rw [hlines] at hphysical
    exact hphysical.sublist (sublist_joinLines first rest)

/-! ### The rules of a text -/

/-- A text in which every production is a rule says rules. -/
theorem exists_says (h : ∀ line ∈ logicalLines text.toList, IsRule line.2) :
    ∃ rules, Says text rules := by
  unfold Says
  generalize logicalLines text.toList = lines at h
  induction lines with
  | nil => exact ⟨[], .nil⟩
  | cons line lines ih =>
    obtain ⟨rules, hrules⟩ := ih fun line' hline' => h line' (List.mem_cons_of_mem _ hline')
    obtain ⟨head, alternatives, hstates⟩ := h line List.mem_cons_self
    exact ⟨⟨line.1, head, alternatives⟩ :: rules, .cons ⟨rfl, hstates⟩ hrules⟩

/-- A text says one list of rules only. -/
theorem Says.unique {rules' : List Rule} (h : Says text rules) (h' : Says text rules') :
    rules = rules' := by
  have heq := (map_parseRule_eq_iff.2 h).symm.trans (map_parseRule_eq_iff.2 h')
  exact List.map_injective_iff.2 (fun _ _ => Except.ok.inj) heq

theorem Says.map_line (h : Says text rules) :
    rules.map Rule.line = (logicalLines text.toList).map Prod.fst := by
  unfold Says at h
  generalize logicalLines text.toList = lines at h
  induction h with
  | nil => rfl
  | cons hstated _ ih => rw [List.map_cons, List.map_cons, hstated.1, ih]

/-- **No two productions begin on the same line.** -/
theorem Says.eq_of_line_eq (h : Says text rules) (hrule : rule ∈ rules) (hrule' : rule' ∈ rules)
    (heq : rule.line = rule'.line) : rule = rule' := by
  have hlines := pairwise_logicalLines text.toList
  rw [← h.map_line] at hlines
  exact List.inj_on_of_nodup_map (hlines.imp Nat.ne_of_lt) hrule hrule' heq

/-! ### Errors about the empty word -/

/-- The production breaks the rule about the empty word that the error speaks of. -/
def Breaks (start : Symbol) (rule : Rule) : GrammarError → Prop
  | .epsilonOutsideStart head => rule.head = head ∧ .empty ∈ rule.alternatives
  | .reentersNullableStart head => rule.head = head ∧ ∃ t, .step t start ∈ rule.alternatives
  | _ => False

/-- An alternative of an entry is that of a production, and the entry has the line of the
first production. -/
theorem exists_own_of_mem_entries (h : entry ∈ entries rules) (hp : p ∈ entry.alternatives) :
    (∃ rule ∈ rules, rule.head = entry.head ∧ p ∈ rule.alternatives) ∧
      ∃ own, rules.find? (fun rule => rule.head == entry.head) = some own ∧
        entry.line = own.line := by
  obtain ⟨head, -, rfl⟩ := List.mem_map.1 h
  obtain ⟨rule, hrule, hhead, hp⟩ := mem_alternatives_entryOf.1 hp
  have hsome : (rules.find? fun rule => rule.head == head).isSome = true :=
    List.find?_isSome.2 ⟨rule, hrule, beq_iff_eq.2 hhead⟩
  obtain ⟨own, hown⟩ := Option.isSome_iff_exists.1 hsome
  refine ⟨⟨rule, hrule, hhead, hp⟩, own, hown, ?_⟩
  rw [entryOf, List.head?_filter, hown, Option.map_some, Option.getD_some]

/-- **An error about the empty word speaks of a nonterminal, one of whose productions breaks
the rule, and is reported on the line of the first of them.** -/
theorem of_mem_errors (h : ofRules text start rules = .error errors) (he : e ∈ errors) :
    ∃ head, (e.cause = .epsilonOutsideStart head ∨ e.cause = .reentersNullableStart head) ∧
      (∃ rule ∈ rules, Breaks start rule e.cause) ∧
      ∃ own, rules.find? (fun rule => rule.head == head) = some own ∧
        e.location = .onLine own.line := by
  have hmem : e ∈ misplacedEpsilons start (entries rules) ++
      startReentries start (entries rules) := by
    unfold ofRules at h
    dsimp only at h
    split at h
    · cases h
    · cases h
      exact he
  rcases List.mem_append.1 hmem with he | he
  · obtain ⟨entry, hentry, rfl⟩ := List.mem_map.1 he
    obtain ⟨hentry, hbreaks⟩ := List.mem_filter.1 hentry
    have hp : .empty ∈ entry.alternatives := by
      simpa using (Bool.and_eq_true_iff.1 hbreaks).2
    obtain ⟨⟨rule, hrule, hbroken⟩, own, hown, hline⟩ := exists_own_of_mem_entries hentry hp
    exact ⟨entry.head, .inl rfl, ⟨rule, hrule, hbroken⟩, own, hown,
      congrArg Location.onLine hline⟩
  · unfold startReentries at he
    split at he
    · obtain ⟨entry, hentry, rfl⟩ := List.mem_map.1 he
      obtain ⟨hentry, hbreaks⟩ := List.mem_filter.1 hentry
      obtain ⟨p, hp, hback⟩ := List.any_eq_true.1 hbreaks
      obtain ⟨t, rfl⟩ := Production.nonterminal?_eq_some_iff.1 (beq_iff_eq.1 hback)
      obtain ⟨⟨rule, hrule, hhead, hp⟩, own, hown, hline⟩ := exists_own_of_mem_entries hentry hp
      exact ⟨entry.head, .inr rfl, ⟨rule, hrule, hhead, t, hp⟩, own, hown,
        congrArg Location.onLine hline⟩
    · exact absurd he List.not_mem_nil

/-- **Where errors about the empty word are reported.**  Of a text in which every production
is a rule, such an error speaks of a nonterminal, one of whose productions breaks the rule.
It is reported on the line where the first production of the nonterminal begins.  So it is
reported where a production begins that breaks the rule if and only if the first one does. -/
theorem semantic_error_location (hlines : ∀ line ∈ logicalLines text.toList, IsRule line.2)
    (hparse : parse text = .error errors) :
    ∃ rules, Says text rules ∧ ∀ e ∈ errors, ∀ head,
      (e.cause = .epsilonOutsideStart head ∨ e.cause = .reentersNullableStart head) →
        ∃ first own, rules.head? = some first ∧
          rules.find? (fun rule => rule.head == head) = some own ∧
          e.location = .onLine own.line ∧
          (∃ rule ∈ rules, Breaks first.head rule e.cause) ∧
          ((∃ rule ∈ rules, Breaks first.head rule e.cause ∧ e.location = .onLine rule.line) ↔
            Breaks first.head own e.cause) := by
  obtain ⟨rules, hrules⟩ := exists_says hlines
  refine ⟨rules, hrules, fun e he head hcause => ?_⟩
  cases rules with
  | nil =>
    -- without productions there is one error only, which is another one
    have hnone : logicalLines text.toList = [] := List.forall₂_nil_right_iff.1 hrules
    unfold parse at hparse
    rw [hnone] at hparse
    cases hparse
    obtain rfl := List.mem_singleton.1 he
    rcases hcause with hcause | hcause <;> cases hcause
  | cons first rest =>
    rw [parse_eq_ofRules hrules] at hparse
    obtain ⟨head', hcause', hbroken, own, hown, hlocation⟩ := of_mem_errors hparse he
    obtain rfl : head' = head := by
      rcases hcause with hcause | hcause <;> rcases hcause' with hcause' | hcause' <;>
        rw [hcause] at hcause' <;> cases hcause' <;> rfl
    have hmem : own ∈ first :: rest := List.mem_of_find?_eq_some hown
    refine ⟨first, own, rfl, hown, hlocation, hbroken, ?_, fun hbreaks => ?_⟩
    · intro hthere
      obtain ⟨rule, hrule, hbreaks, hline⟩ := hthere
      rw [hlocation] at hline
      rwa [hrules.eq_of_line_eq hmem hrule (congrArg Location.line hline)]
    · exact ⟨own, hmem, hbreaks, hlocation⟩

/-- In this text the second production of `A` breaks the rule, and the first one is reported. -/
theorem semantic_error_location_reentry :
    let rules : List Rule := [⟨1, 'S', [.step 'a' 'A', .empty]⟩, ⟨2, 'A', [.terminal 'b']⟩,
      ⟨3, 'A', [.step 'a' 'S']⟩]
    (∀ line ∈ logicalLines "S -> aA | &\nA -> b\nA -> aS".toList, IsRule line.2) ∧
      parse "S -> aA | &\nA -> b\nA -> aS" = .error [⟨.onLine 2, .reentersNullableStart 'A'⟩] ∧
      Says "S -> aA | &\nA -> b\nA -> aS" rules ∧
      ¬ ∃ rule ∈ rules, Breaks 'S' rule (.reentersNullableStart 'A') ∧
        Location.onLine 2 = .onLine rule.line := by
  intro rules
  have hrules : Says "S -> aA | &\nA -> b\nA -> aS" rules := map_parseRule_eq_iff.1 rfl
  have hlines : ∀ line ∈ logicalLines "S -> aA | &\nA -> b\nA -> aS".toList, IsRule line.2 := by
    decide
  have hparse : parse "S -> aA | &\nA -> b\nA -> aS" =
      .error [⟨.onLine 2, .reentersNullableStart 'A'⟩] := rfl
  refine ⟨hlines, hparse, hrules, ?_⟩
  obtain ⟨rules', hrules', herrors⟩ := semantic_error_location hlines hparse
  obtain rfl := hrules.unique hrules'
  obtain ⟨first, own, hfirst, hown, -, -, hiff⟩ :=
    herrors _ List.mem_cons_self 'A' (.inr rfl)
  obtain rfl := Option.some.inj hfirst
  obtain rfl := Option.some.inj hown
  rw [hiff]
  simp [Breaks]

/-- In this text `A` derives the empty word on the third line, and the error is reported on
the second one. -/
theorem reported_on_innocent_line :
    ∃ rules errors, Says "S -> aA\nA -> b\nA -> &" rules ∧
      parse "S -> aA\nA -> b\nA -> &" = .error errors ∧
      ∃ e ∈ errors, e.cause = .epsilonOutsideStart 'A' ∧ e.location = .onLine 2 ∧
        ¬ ∃ rule ∈ rules, Breaks 'S' rule e.cause ∧ e.location = .onLine rule.line := by
  have hrules : Says "S -> aA\nA -> b\nA -> &" [⟨1, 'S', [.step 'a' 'A']⟩,
    ⟨2, 'A', [.terminal 'b']⟩, ⟨3, 'A', [.empty]⟩] := map_parseRule_eq_iff.1 rfl
  refine ⟨_, [⟨.onLine 2, .epsilonOutsideStart 'A'⟩], hrules, rfl, _, List.mem_cons_self, rfl,
    rfl, ?_⟩
  simp [Breaks, Location.onLine]

end FiniteState.Grammar
