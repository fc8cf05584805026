import Mathlib.Data.List.Nodup
import FiniteState.Regex.Position

/-!
# Words of positions are walks

In an expression over positions every position stands in one place only.  Its words
are then described by what is locally possible: which positions begin a word, which
can follow one another, and which end a word.  A word without such a description
is only the empty one.

That words are walks holds of every expression.  For the converse a walk is cut
into pieces: inside an alternative it stays on the side where it begins, across a
concatenation it changes sides once, and in a repetition it is cut wherever it
takes a link from the end of the repeated expression back to its beginning.

## Main definitions

* `Regex.Expr.Follows` — one position can follow another.
* `Regex.Walk` — the sequences of positions that follow one another up to an end.
* `Regex.Expr.Reads` — the walks from a beginning to an end.

## Main results

* `Regex.Expr.matches_iff` — **the words over positions are the walks, and the empty
  word if it is one**.
-/

namespace FiniteState.Regex

variable {F G : ℕ → ℕ → Prop} {L M : NatSet} {e f : Expr ℕ} {p q : ℕ} {ps u v w : List ℕ}

/-- Positions that follow one another, the last of which belongs to a set of ends. -/
inductive Walk (F : ℕ → ℕ → Prop) (L : NatSet) : List ℕ → Prop
  /-- The walk is at an end. -/
  | last {p : ℕ} : p ∈ L → Walk F L [p]
  /-- A position comes before a walk. -/
  | step {p q : ℕ} {ps : List ℕ} : F p q → Walk F L (q :: ps) → Walk F L (p :: q :: ps)

namespace Walk

theorem mono (hF : ∀ {p q}, F p q → G p q) (hL : ∀ {p}, p ∈ L → p ∈ M) (h : Walk F L w) :
    Walk G M w := by
  induction h with
  | last hp => exact .last (hL hp)
  | step hpq _ ih => exact .step (hF hpq) ih

/-- A walk goes on with another one where the ends of the one link to the
beginning of the other. -/
theorem append (hu : Walk F L u) (hlink : ∀ {p}, p ∈ L → F p q) (hv : Walk F M (q :: v)) :
    Walk F M (u ++ q :: v) := by
  induction hu with
  | last hp => exact .step (hlink hp) hv
  | step hpq _ ih => exact .step hpq ih

/-- A walk stays among positions that no link leaves. -/
theorem restrict {A : ℕ → Prop} (hF : ∀ {p q}, A p → F p q → G p q ∧ A q)
    (hL : ∀ {p}, A p → p ∈ L → p ∈ M) (h : Walk F L (p :: ps)) (hp : A p) : Walk G M (p :: ps) := by
  generalize hw : p :: ps = w at h
  induction h generalizing p ps with
  | last hend =>
    obtain ⟨rfl, -⟩ := List.cons.inj hw
    exact .last (hL hp hend)
  | step hpq _ ih =>
    obtain ⟨rfl, -⟩ := List.cons.inj hw
    obtain ⟨hG, hq⟩ := hF hp hpq
    exact .step hG (ih hq rfl)

end Walk

namespace Expr

/-- The position can follow the other one. -/
def Follows (e : Expr ℕ) (p q : ℕ) : Prop := ∃ l ∈ e.links, p ∈ l.1 ∧ q ∈ l.2

/-- The word is a walk from a position that begins a word to one that ends a word. -/
def Reads (e : Expr ℕ) (w : List ℕ) : Prop :=
  ∃ p ps, w = p :: ps ∧ p ∈ e.facts.first ∧ Walk e.Follows e.facts.last w

/-! ### The facts of each kind of expression -/

theorem not_follows_empty : ¬ (Expr.empty : Expr ℕ).Follows p q :=
  fun ⟨_, hl, _⟩ => absurd hl List.not_mem_nil

theorem not_follows_letter {a : ℕ} : ¬ (Expr.letter a).Follows p q :=
  fun ⟨_, hl, _⟩ => absurd hl List.not_mem_nil

theorem follows_star : (Expr.star e).Follows p q ↔
    e.Follows p q ∨ p ∈ e.facts.last ∧ q ∈ e.facts.first := by
  simp only [Follows, links_star, List.mem_cons, exists_eq_or_imp]
  exact or_comm

theorem follows_alternation : (Expr.alternation e f).Follows p q ↔
    e.Follows p q ∨ f.Follows p q := by
  simp only [Follows, links_alternation, List.mem_append, or_and_right, exists_or]

theorem follows_concatenation : (Expr.concatenation e f).Follows p q ↔
    e.Follows p q ∨ f.Follows p q ∨ p ∈ e.facts.last ∧ q ∈ f.facts.first := by
  simp only [Follows, links_concatenation, List.mem_cons, List.mem_append, or_and_right,
    exists_or, exists_eq_left]
  rw [or_comm, or_assoc]

theorem mem_first_concatenation : p ∈ (Expr.concatenation e f).facts.first ↔
    p ∈ e.facts.first ∨ e.facts.nullable = true ∧ p ∈ f.facts.first := by
  simp only [facts, Facts.concatenation]
  cases e.facts.nullable <;> simp

theorem mem_last_concatenation : p ∈ (Expr.concatenation e f).facts.last ↔
    p ∈ f.facts.last ∨ f.facts.nullable = true ∧ p ∈ e.facts.last := by
  simp only [facts, Facts.concatenation]
  cases f.facts.nullable <;> simp

theorem mem_first_alternation : p ∈ (Expr.alternation e f).facts.first ↔
    p ∈ e.facts.first ∨ p ∈ f.facts.first := NatSet.mem_union

theorem mem_last_alternation : p ∈ (Expr.alternation e f).facts.last ↔
    p ∈ e.facts.last ∨ p ∈ f.facts.last := NatSet.mem_union

/-! ### Only positions of the expression occur -/

theorem mem_letters_of_mem_first (h : p ∈ e.facts.first) : p ∈ e.letters := by
  induction e with
  | empty => exact absurd h (NatSet.notMem_empty p)
  | letter a => exact List.mem_singleton.2 (NatSet.mem_singleton.1 h)
  | star e ih => exact ih h
  | alternation e f ihe ihf =>
    exact List.mem_append.2 ((mem_first_alternation.1 h).imp ihe ihf)
  | concatenation e f ihe ihf =>
    exact List.mem_append.2 ((mem_first_concatenation.1 h).imp ihe fun h => ihf h.2)

theorem mem_letters_of_mem_last (h : p ∈ e.facts.last) : p ∈ e.letters := by
  induction e with
  | empty => exact absurd h (NatSet.notMem_empty p)
  | letter a => exact List.mem_singleton.2 (NatSet.mem_singleton.1 h)
  | star e ih => exact ih h
  | alternation e f ihe ihf =>
    exact List.mem_append.2 ((mem_last_alternation.1 h).imp ihe ihf)
  | concatenation e f ihe ihf =>
    exact List.mem_append.2 ((mem_last_concatenation.1 h).symm.imp (fun h => ihe h.2) ihf)

theorem mem_letters_of_follows (h : e.Follows p q) : p ∈ e.letters ∧ q ∈ e.letters := by
  induction e with
  | empty => exact absurd h not_follows_empty
  | letter a => exact absurd h not_follows_letter
  | star e ih =>
    rcases follows_star.1 h with h | ⟨hp, hq⟩
    · exact ih h
    · exact ⟨mem_letters_of_mem_last hp, mem_letters_of_mem_first hq⟩
  | alternation e f ihe ihf =>
    rcases follows_alternation.1 h with h | h
    · exact ⟨List.mem_append_left _ (ihe h).1, List.mem_append_left _ (ihe h).2⟩
    · exact ⟨List.mem_append_right _ (ihf h).1, List.mem_append_right _ (ihf h).2⟩
  | concatenation e f ihe ihf =>
    rcases follows_concatenation.1 h with h | h | ⟨hp, hq⟩
    · exact ⟨List.mem_append_left _ (ihe h).1, List.mem_append_left _ (ihe h).2⟩
    · exact ⟨List.mem_append_right _ (ihf h).1, List.mem_append_right _ (ihf h).2⟩
    · exact ⟨List.mem_append_left _ (mem_letters_of_mem_last hp),
        List.mem_append_right _ (mem_letters_of_mem_first hq)⟩

/-! ### Words are walks -/

/-- Two words one after the other, each empty or a walk, make a walk. -/
theorem Reads.append {g : Expr ℕ} (hu : e.Reads u) (hv : f.Reads v)
    (hfirst : ∀ {p}, p ∈ e.facts.first → p ∈ g.facts.first)
    (hlast : ∀ {p}, p ∈ f.facts.last → p ∈ g.facts.last)
    (hleft : ∀ {p q}, e.Follows p q → g.Follows p q)
    (hright : ∀ {p q}, f.Follows p q → g.Follows p q)
    (hlink : ∀ {p q}, p ∈ e.facts.last → q ∈ f.facts.first → g.Follows p q) :
    g.Reads (u ++ v) := by
  obtain ⟨p, ps, rfl, hp, hu⟩ := hu
  obtain ⟨q, qs, rfl, hq, hv⟩ := hv
  refine ⟨p, ps ++ q :: qs, rfl, hfirst hp, ?_⟩
  exact (hu.mono hleft id).append (fun hend => hlink hend hq) (hv.mono hright hlast)

theorem Reads.mono {g : Expr ℕ} (h : e.Reads w)
    (hfirst : ∀ {p}, p ∈ e.facts.first → p ∈ g.facts.first)
    (hlast : ∀ {p}, p ∈ e.facts.last → p ∈ g.facts.last)
    (hfollows : ∀ {p q}, e.Follows p q → g.Follows p q) : g.Reads w := by
  obtain ⟨p, ps, rfl, hp, hwalk⟩ := h
  exact ⟨p, ps, rfl, hfirst hp, hwalk.mono hfollows hlast⟩

/-- **Every word is empty or a walk.** -/
theorem nullable_or_reads (h : e.Matches w) :
    w = [] ∧ e.facts.nullable = true ∨ e.Reads w := by
  induction h with
  | empty => exact .inl ⟨rfl, rfl⟩
  | letter a =>
    exact .inr ⟨a, [], rfl, NatSet.mem_singleton.2 rfl, .last (NatSet.mem_singleton.2 rfl)⟩
  | starNil e => exact .inl ⟨rfl, rfl⟩
  | @starAppend e u v _ _ ihu ihv =>
    -- an empty round adds nothing, and two rounds are linked from an end to a beginning
    rcases ihu with ⟨rfl, -⟩ | hu
    · exact ihv
    · right
      rcases ihv with ⟨rfl, -⟩ | hv
      · rw [List.append_nil]
        exact hu.mono (g := .star e) id id fun h => follows_star.2 (.inl h)
      · exact hu.append hv id id (fun h => follows_star.2 (.inl h)) id
          fun hp hq => follows_star.2 (.inr ⟨hp, hq⟩)
  | @left e f w _ ih =>
    refine ih.imp (fun h => ⟨h.1, ?_⟩) fun h => ?_
    · simp [facts, Facts.alternation, h.2]
    · exact h.mono (fun h => mem_first_alternation.2 (.inl h))
        (fun h => mem_last_alternation.2 (.inl h)) fun h => follows_alternation.2 (.inl h)
  | @right e f w _ ih =>
    refine ih.imp (fun h => ⟨h.1, ?_⟩) fun h => ?_
    · simp [facts, Facts.alternation, h.2]
    · exact h.mono (fun h => mem_first_alternation.2 (.inr h))
        (fun h => mem_last_alternation.2 (.inr h)) fun h => follows_alternation.2 (.inr h)
  | @append e f u v _ _ ihu ihv =>
    -- either half may be empty, and then the other one begins and ends the word
    rcases ihu with ⟨rfl, hu⟩ | hu <;> rcases ihv with ⟨rfl, hv⟩ | hv
    · exact .inl ⟨rfl, by simp [facts, Facts.concatenation, hu, hv]⟩
    · right
      exact hv.mono (fun h => mem_first_concatenation.2 (.inr ⟨hu, h⟩))
        (fun h => mem_last_concatenation.2 (.inl h))
        fun h => follows_concatenation.2 (.inr (.inl h))
    · right
      rw [List.append_nil]
      exact hu.mono (fun h => mem_first_concatenation.2 (.inl h))
        (fun h => mem_last_concatenation.2 (.inr ⟨hv, h⟩))
        fun h => follows_concatenation.2 (.inl h)
    · right
      exact hu.append hv (fun h => mem_first_concatenation.2 (.inl h))
        (fun h => mem_last_concatenation.2 (.inl h))
        (fun h => follows_concatenation.2 (.inl h))
        (fun h => follows_concatenation.2 (.inr (.inl h)))
        fun hp hq => follows_concatenation.2 (.inr (.inr ⟨hp, hq⟩))

/-! ### Walks are words -/

theorem matches_nil_of_nullable (h : e.facts.nullable = true) : e.Matches [] := by
  induction e with
  | empty => exact .empty
  | letter a => cases h
  | star e _ => exact .starNil e
  | alternation e f ihe ihf =>
    rcases Bool.or_eq_true_iff.1 h with h | h
    · exact .left (ihe h)
    · exact .right (ihf h)
  | concatenation e f ihe ihf =>
    obtain ⟨he, hf⟩ := Bool.and_eq_true_iff.1 h
    exact .append (ihe he) (ihf hf)

/-- A walk in a larger expression that begins in a part stays there, if its links and
its ends among the positions of the part are those of the part. -/
theorem walk_of_mem_letters {g : Expr ℕ} (h : Walk g.Follows g.facts.last (p :: ps))
    (hfollows : ∀ {x q}, x ∈ e.letters → g.Follows x q → e.Follows x q)
    (hlast : ∀ {x}, x ∈ e.letters → x ∈ g.facts.last → x ∈ e.facts.last)
    (hp : p ∈ e.letters) : Walk e.Follows e.facts.last (p :: ps) := by
  refine h.restrict (A := (· ∈ e.letters)) (fun hx hxq => ?_) hlast hp
  have hstep := hfollows hx hxq
  exact ⟨hstep, (mem_letters_of_follows hstep).2⟩

/-- A walk in an alternative stays on the side where it begins. -/
theorem reads_of_alternation (hdisj : e.letters.Disjoint f.letters)
    (h : (Expr.alternation e f).Reads w) : e.Reads w ∨ f.Reads w := by
  obtain ⟨p, ps, rfl, hp, hwalk⟩ := h
  rcases mem_first_alternation.1 hp with hp | hp
  · left
    refine ⟨p, ps, rfl, hp, walk_of_mem_letters hwalk (fun hx h => ?_) (fun hx h => ?_)
      (mem_letters_of_mem_first hp)⟩
    · exact (follows_alternation.1 h).resolve_right fun h => hdisj hx (mem_letters_of_follows h).1
    · exact (mem_last_alternation.1 h).resolve_right fun h => hdisj hx (mem_letters_of_mem_last h)
  · right
    refine ⟨p, ps, rfl, hp, walk_of_mem_letters hwalk (fun hx h => ?_) (fun hx h => ?_)
      (mem_letters_of_mem_first hp)⟩
    · exact (follows_alternation.1 h).resolve_left fun h => hdisj (mem_letters_of_follows h).1 hx
    · exact (mem_last_alternation.1 h).resolve_left fun h => hdisj (mem_letters_of_mem_last h) hx

/-- A walk across a concatenation that is on the right stays there. -/
theorem walk_right_of_concatenation (hdisj : e.letters.Disjoint f.letters)
    (h : Walk (Expr.concatenation e f).Follows (Expr.concatenation e f).facts.last (p :: ps))
    (hp : p ∈ f.letters) : Walk f.Follows f.facts.last (p :: ps) := by
  refine walk_of_mem_letters h (fun hx h => ?_) (fun hx h => ?_) hp
  · rcases follows_concatenation.1 h with h | h | ⟨h, -⟩
    · exact absurd hx (hdisj (mem_letters_of_follows h).1)
    · exact h
    · exact absurd hx (hdisj (mem_letters_of_mem_last h))
  · rcases mem_last_concatenation.1 h with h | ⟨-, h⟩
    · exact h
    · exact absurd hx (hdisj (mem_letters_of_mem_last h))

/-- A walk across a concatenation that is on the left changes sides once, or ends
on the left if nothing has to come on the right. -/
theorem exists_split_of_concatenation (hdisj : e.letters.Disjoint f.letters)
    (h : Walk (Expr.concatenation e f).Follows (Expr.concatenation e f).facts.last (p :: ps))
    (hp : p ∈ e.letters) :
    ∃ us v, ps = us ++ v ∧ Walk e.Follows e.facts.last (p :: us) ∧
      (v = [] ∧ f.facts.nullable = true ∨ f.Reads v) := by
  generalize hw : p :: ps = w at h
  induction h generalizing p ps with
  | last hend =>
    obtain ⟨rfl, rfl⟩ := List.cons.inj hw
    rcases mem_last_concatenation.1 hend with hend | ⟨hnull, hend⟩
    · exact absurd (mem_letters_of_mem_last hend) (hdisj hp)
    · exact ⟨[], [], rfl, .last hend, .inl ⟨rfl, hnull⟩⟩
  | @step p' q qs hpq htail ih =>
    obtain ⟨rfl, rfl⟩ := List.cons.inj hw
    -- the link stays on the left, would begin on the right, or crosses over
    rcases follows_concatenation.1 hpq with hpq | hpq | ⟨hend, hq⟩
    · obtain ⟨us, v, rfl, hus, hv⟩ := ih (mem_letters_of_follows hpq).2 rfl
      exact ⟨q :: us, v, rfl, .step hpq hus, hv⟩
    · exact absurd (mem_letters_of_follows hpq).1 (hdisj hp)
    · exact ⟨[], q :: qs, rfl, .last hend, .inr ⟨q, qs, rfl, hq,
        walk_right_of_concatenation hdisj htail (mem_letters_of_mem_first hq)⟩⟩

/-- A walk in a repetition has a first round. -/
theorem exists_split_of_star
    (h : Walk (Expr.star e).Follows (Expr.star e).facts.last (p :: ps)) :
    ∃ us v, ps = us ++ v ∧ Walk e.Follows e.facts.last (p :: us) ∧
      (v = [] ∨ (Expr.star e).Reads v) := by
  generalize hw : p :: ps = w at h
  induction h generalizing p ps with
  | last hend =>
    obtain ⟨rfl, rfl⟩ := List.cons.inj hw
    exact ⟨[], [], rfl, .last hend, .inl rfl⟩
  | @step p' q qs hpq htail ih =>
    obtain ⟨rfl, rfl⟩ := List.cons.inj hw
    -- the link stays in the round, or begins the next one
    rcases follows_star.1 hpq with hpq | ⟨hend, hq⟩
    · obtain ⟨us, v, rfl, hus, hv⟩ := ih rfl
      exact ⟨q :: us, v, rfl, .step hpq hus, hv⟩
    · exact ⟨[], q :: qs, rfl, .last hend, .inr ⟨q, qs, rfl, hq, htail⟩⟩

/-- Round after round, a walk in a repetition is a word. -/
theorem matches_star_of_reads (hround : ∀ {u}, e.Reads u → e.Matches u)
    (h : (Expr.star e).Reads w) : (Expr.star e).Matches w := by
  -- a round reads a position, so the rest of the walk is shorter
  induction hn : w.length using Nat.strongRecOn generalizing w with
  | ind n ih =>
    obtain ⟨p, ps, rfl, hp, hwalk⟩ := h
    obtain ⟨us, v, rfl, hus, hv⟩ := exists_split_of_star hwalk
    refine .starAppend (u := p :: us) (hround ⟨p, us, rfl, hp, hus⟩) ?_
    rcases hv with rfl | hv
    · exact .starNil e
    · refine ih v.length ?_ hv rfl
      rw [← hn, List.length_cons, List.length_append]
      omega

/-- **Where no position occurs twice, every walk is a word.** -/
theorem matches_of_reads (hnd : e.letters.Nodup) (h : e.Reads w) : e.Matches w := by
  induction e generalizing w with
  | empty =>
    obtain ⟨p, ps, -, hp, -⟩ := h
    exact absurd hp (NatSet.notMem_empty p)
  | letter a =>
    obtain ⟨p, ps, rfl, hp, hwalk⟩ := h
    obtain rfl := NatSet.mem_singleton.1 hp
    cases hwalk with
    | last _ => exact .letter p
    | step hpq _ => exact absurd hpq not_follows_letter
  | star e ih => exact matches_star_of_reads (ih hnd) h
  | alternation e f ihe ihf =>
    obtain ⟨hnde, hndf, hdisj⟩ := List.nodup_append'.1 hnd
    rcases reads_of_alternation hdisj h with h | h
    · exact .left (ihe hnde h)
    · exact .right (ihf hndf h)
  | concatenation e f ihe ihf =>
    obtain ⟨hnde, hndf, hdisj⟩ := List.nodup_append'.1 hnd
    obtain ⟨p, ps, rfl, hp, hwalk⟩ := h
    -- the word begins on the left, or the left is skipped
    rcases mem_first_concatenation.1 hp with hp | ⟨hnull, hp⟩
    · obtain ⟨us, v, rfl, hus, hv⟩ :=
        exists_split_of_concatenation hdisj hwalk (mem_letters_of_mem_first hp)
      refine .append (u := p :: us) (ihe hnde ⟨p, us, rfl, hp, hus⟩) ?_
      rcases hv with ⟨rfl, hnull⟩ | hv
      · exact matches_nil_of_nullable hnull
      · exact ihf hndf hv
    · refine .append (u := []) (matches_nil_of_nullable hnull) (ihf hndf ⟨p, ps, rfl, hp, ?_⟩)
      exact walk_right_of_concatenation hdisj hwalk (mem_letters_of_mem_first hp)

/-- **The words over positions are the walks, and the empty word if it is one.** -/
theorem matches_iff (hnd : e.letters.Nodup) :
    e.Matches w ↔ w = [] ∧ e.facts.nullable = true ∨ e.Reads w := by
  constructor
  · exact nullable_or_reads
  · rintro (⟨rfl, hnull⟩ | h)
    · exact matches_nil_of_nullable hnull
    · exact matches_of_reads hnd h

end Expr

end FiniteState.Regex
