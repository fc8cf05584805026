import FiniteState.Proofs.Regex.Compile

/-!
# What the annotations of an expression mean

The facts of an expression over positions and its links are computed from those of its
parts.  They mean what they are called: the empty word is in the language, the positions
begin or end a word of it, and one position comes right after the other in a word of it.
That words look so was shown when they were read as walks.  For the converse a word is
built around the position or the link.  Every expression has a word, so what stands before
and after can be filled in, and no position needs to occur only once.

## Main definitions

* `Regex.Facts.Describe` — the facts mean for an expression what they are called.

## Main results

* `Regex.Expr.describe_facts` — **the facts of an expression describe its words**.
* `Regex.Expr.follows_iff` — **a position can follow another iff it comes right after it in
  some word**.
* `Regex.PositionTable.annotations` — both for the table of an expression, in which the end
  marker is the last position and is followed by nothing.
-/

namespace FiniteState.Regex

variable {F : ℕ → ℕ → Prop} {L : NatSet} {p q : ℕ} {u v w : List ℕ}

/-- **The facts describe the words of the expression.** -/
structure Facts.Describe (x : Facts) (e : Expr ℕ) : Prop where
  /-- An expression is nullable iff the empty word is in its language. -/
  nullable : x.nullable = true ↔ e.Matches []
  /-- The first positions are those that begin a word. -/
  first : ∀ p, p ∈ x.first ↔ ∃ w, e.Matches (p :: w)
  /-- The last positions are those that end a word. -/
  last : ∀ p, p ∈ x.last ↔ ∃ w, e.Matches (w ++ [p])

/-! ### Positions on a walk -/

namespace Walk

/-- What is left of a walk is a walk. -/
theorem of_append (h : Walk F L (u ++ p :: v)) : Walk F L (p :: v) := by
  induction u with
  | nil => exact h
  | cons q u ih =>
    cases u with
    | nil =>
      cases h with
      | step _ htail => exact htail
    | cons r u =>
      cases h with
      | step _ htail => exact ih htail

/-- A walk ends at an end. -/
theorem mem_of_concat (h : Walk F L (w ++ [p])) : p ∈ L := by
  cases h.of_append with
  | last hp => exact hp

/-- Two positions that a walk passes one after the other are linked. -/
theorem link_of_append (h : Walk F L (u ++ p :: q :: v)) : F p q := by
  cases h.of_append with
  | step hpq _ => exact hpq

end Walk

namespace Expr

variable {e : Expr ℕ}

/-! ### Every word is described -/

theorem nullable_of_matches_nil (h : e.Matches []) : e.facts.nullable = true := by
  rcases nullable_or_reads h with ⟨-, hnull⟩ | ⟨p, ps, heq, -⟩
  · exact hnull
  · cases heq

theorem mem_first_of_matches (h : e.Matches (p :: w)) : p ∈ e.facts.first := by
  rcases nullable_or_reads h with ⟨heq, -⟩ | ⟨q, ps, heq, hq, -⟩
  · cases heq
  · cases heq
    exact hq

theorem mem_last_of_matches (h : e.Matches (w ++ [p])) : p ∈ e.facts.last := by
  rcases nullable_or_reads h with ⟨heq, -⟩ | ⟨q, ps, -, -, hwalk⟩
  · simp at heq
  · exact hwalk.mem_of_concat

theorem follows_of_matches (h : e.Matches (u ++ p :: q :: v)) : e.Follows p q := by
  rcases nullable_or_reads h with ⟨heq, -⟩ | ⟨r, ps, -, -, hwalk⟩
  · simp at heq
  · exact hwalk.link_of_append

/-! ### Every description has a word -/

/-- No language is empty. -/
theorem exists_matches {α : Type} (e : Expr α) : ∃ w, e.Matches w := by
  induction e with
  | empty => exact ⟨[], .empty⟩
  | letter a => exact ⟨[a], .letter a⟩
  | star e _ => exact ⟨[], .starNil e⟩
  | alternation e f ihe _ =>
    obtain ⟨w, hw⟩ := ihe
    exact ⟨w, .left hw⟩
  | concatenation e f ihe ihf =>
    obtain ⟨u, hu⟩ := ihe
    obtain ⟨v, hv⟩ := ihf
    exact ⟨u ++ v, .append hu hv⟩

/-- One round is a word of a repetition. -/
theorem matches_star_of_matches {α : Type} {e : Expr α} {w : List α} (h : e.Matches w) :
    (Expr.star e).Matches w := by
  have hrounds : (Expr.star e).Matches (w ++ []) := .starAppend h (.starNil e)
  rwa [List.append_nil] at hrounds

theorem exists_matches_of_mem_first (h : p ∈ e.facts.first) : ∃ w, e.Matches (p :: w) := by
  induction e with
  | empty => exact absurd h (NatSet.notMem_empty p)
  | letter a =>
    obtain rfl := NatSet.mem_singleton.1 h
    exact ⟨[], .letter p⟩
  | star e ih =>
    obtain ⟨w, hw⟩ := ih h
    exact ⟨w, matches_star_of_matches hw⟩
  | alternation e f ihe ihf =>
    rcases mem_first_alternation.1 h with h | h
    · obtain ⟨w, hw⟩ := ihe h
      exact ⟨w, .left hw⟩
    · obtain ⟨w, hw⟩ := ihf h
      exact ⟨w, .right hw⟩
  | concatenation e f ihe ihf =>
    rcases mem_first_concatenation.1 h with h | ⟨hnull, h⟩
    · obtain ⟨w, hw⟩ := ihe h
      obtain ⟨v, hv⟩ := exists_matches f
      exact ⟨w ++ v, .append hw hv⟩
    · obtain ⟨w, hw⟩ := ihf h
      exact ⟨w, .append (matches_nil_of_nullable hnull) hw⟩

theorem exists_matches_of_mem_last (h : p ∈ e.facts.last) : ∃ w, e.Matches (w ++ [p]) := by
  induction e with
  | empty => exact absurd h (NatSet.notMem_empty p)
  | letter a =>
    obtain rfl := NatSet.mem_singleton.1 h
    exact ⟨[], .letter p⟩
  | star e ih =>
    obtain ⟨w, hw⟩ := ih h
    exact ⟨w, matches_star_of_matches hw⟩
  | alternation e f ihe ihf =>
    rcases mem_last_alternation.1 h with h | h
    · obtain ⟨w, hw⟩ := ihe h
      exact ⟨w, .left hw⟩
    · obtain ⟨w, hw⟩ := ihf h
      exact ⟨w, .right hw⟩
  | concatenation e f ihe ihf =>
    rcases mem_last_concatenation.1 h with h | ⟨hnull, h⟩
    · obtain ⟨u, hu⟩ := exists_matches e
      obtain ⟨w, hw⟩ := ihf h
      refine ⟨u ++ w, ?_⟩
      rw [List.append_assoc]
      exact .append hu hw
    · obtain ⟨w, hw⟩ := ihe h
      refine ⟨w, ?_⟩
      rw [← List.append_nil (w ++ [p])]
      exact .append hw (matches_nil_of_nullable hnull)

/-- A word that ends with one position and a word that begins with another, one after the
other, have the two positions side by side. -/
theorem append_side_by_side : (u ++ [p]) ++ (q :: v) = u ++ p :: q :: v := by simp

theorem exists_matches_of_follows (h : e.Follows p q) :
    ∃ u v, e.Matches (u ++ p :: q :: v) := by
  induction e with
  | empty => exact absurd h not_follows_empty
  | letter a => exact absurd h not_follows_letter
  | star e ih =>
    rcases follows_star.1 h with h | ⟨hp, hq⟩
    · obtain ⟨u, v, hword⟩ := ih h
      exact ⟨u, v, matches_star_of_matches hword⟩
    · -- the first of two rounds ends with the one position, and the second begins with the other
      obtain ⟨u, hu⟩ := exists_matches_of_mem_last hp
      obtain ⟨v, hv⟩ := exists_matches_of_mem_first hq
      refine ⟨u, v, ?_⟩
      rw [← append_side_by_side]
      exact .starAppend hu (matches_star_of_matches hv)
  | alternation e f ihe ihf =>
    rcases follows_alternation.1 h with h | h
    · obtain ⟨u, v, hword⟩ := ihe h
      exact ⟨u, v, .left hword⟩
    · obtain ⟨u, v, hword⟩ := ihf h
      exact ⟨u, v, .right hword⟩
  | concatenation e f ihe ihf =>
    rcases follows_concatenation.1 h with h | h | ⟨hp, hq⟩
    · obtain ⟨u, v, hword⟩ := ihe h
      obtain ⟨w, hw⟩ := exists_matches f
      refine ⟨u, v ++ w, ?_⟩
      have happend := Matches.append hword hw
      rwa [List.append_assoc] at happend
    · obtain ⟨w, hw⟩ := exists_matches e
      obtain ⟨u, v, hword⟩ := ihf h
      refine ⟨w ++ u, v, ?_⟩
      rw [List.append_assoc]
      exact .append hw hword
    · obtain ⟨u, hu⟩ := exists_matches_of_mem_last hp
      obtain ⟨v, hv⟩ := exists_matches_of_mem_first hq
      refine ⟨u, v, ?_⟩
      rw [← append_side_by_side]
      exact .append hu hv

/-- **The facts of an expression describe its words.** -/
theorem describe_facts (e : Expr ℕ) : e.facts.Describe e where
  nullable := ⟨matches_nil_of_nullable, nullable_of_matches_nil⟩
  first _ := ⟨exists_matches_of_mem_first, fun ⟨_, h⟩ => mem_first_of_matches h⟩
  last _ := ⟨exists_matches_of_mem_last, fun ⟨_, h⟩ => mem_last_of_matches h⟩

/-- **A position can follow another iff it comes right after it in some word.** -/
theorem follows_iff : e.Follows p q ↔ ∃ u v, e.Matches (u ++ p :: q :: v) :=
  ⟨exists_matches_of_follows, fun ⟨_, _, h⟩ => follows_of_matches h⟩

end Expr

/-! ### The table of an expression -/

namespace PositionTable

/-- Every position has an entry. -/
theorem exists_follow? (e : Expr Symbol) (hp : p < (ofExpr e).size) :
    ∃ S, (ofExpr e).follow? p = some S ∧ ∀ q, q ∈ S ↔ (ofExpr e).root.Follows p q := by
  have hlen : p < (ofExpr e).follow.size := by
    rw [size_ofExpr] at hp
    simpa [ofExpr] using hp
  refine ⟨(ofExpr e).follow[p], Array.getElem?_eq_getElem hlen, fun q => ?_⟩
  rw [← mem_follow?, follow?, Array.getElem?_eq_getElem hlen, Option.getD_some]

/-- The end marker is the last position of every word. -/
theorem not_follows_endMarker (e : Expr Symbol) :
    ¬ (ofExpr e).root.Follows (ofExpr e).endMarker q := by
  -- in front of the marker there are only smaller positions
  have hletters : (ofExpr e).endMarker ∉ e.number.letters := by
    rw [Expr.letters_number, endMarker_ofExpr]
    simp
  intro h
  rcases Expr.follows_concatenation.1 h with h | h | ⟨h, -⟩
  · exact hletters (Expr.mem_letters_of_follows h).1
  · exact Expr.not_follows_letter h
  · exact hletters (Expr.mem_letters_of_mem_last h)

/-- **The annotations of an expression with an end marker.**  The leaves are numbered from
left to right and stand for the letters of the expression; the facts of every node describe
its words; the entry of a position lists what comes right after it in some word; and the end
marker is the last position, carries no symbol and is followed by nothing. -/
theorem annotations (e : Expr Symbol) :
    (ofExpr e).root = .concatenation e.number (.letter (ofExpr e).endMarker) ∧
      e.number.map (ofExpr e).symbol? = e.map some ∧
      (ofExpr e).root.letters = List.range (ofExpr e).size ∧
      (∀ f ∈ (ofExpr e).root.subterms, f.facts.Describe f) ∧
      (∀ p < (ofExpr e).size, ∃ S, (ofExpr e).follow? p = some S ∧
        ∀ q, q ∈ S ↔ ∃ u v, (ofExpr e).root.Matches (u ++ p :: q :: v)) ∧
      (ofExpr e).endMarker + 1 = (ofExpr e).size ∧
      (ofExpr e).symbol? (ofExpr e).endMarker = none ∧
      (ofExpr e).follow? (ofExpr e).endMarker = some ∅ := by
  refine ⟨?_, ?_, ?_, fun f _ => f.describe_facts, fun p hp => ?_, rfl, ?_, ?_⟩
  · rw [endMarker_ofExpr]
    rfl
  · rw [← Expr.map_number e]
    exact congrArg e.number.map (funext (symbol?_ofExpr e))
  · rw [letters_root, size_ofExpr]
  · obtain ⟨S, hS, hmem⟩ := exists_follow? e hp
    exact ⟨S, hS, fun q => (hmem q).trans Expr.follows_iff⟩
  · rw [symbol?_ofExpr, endMarker_ofExpr]
    simp
  · obtain ⟨S, hS, hmem⟩ := exists_follow? e (p := (ofExpr e).endMarker) (Nat.lt_succ_self _)
    have hempty : S = ∅ := NatSet.ext fun q =>
      iff_of_false (fun hq => not_follows_endMarker e ((hmem q).1 hq)) (NatSet.notMem_empty q)
    rw [hS, hempty]

end PositionTable

end FiniteState.Regex
