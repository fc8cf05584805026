import Mathlib.Logic.Function.Basic
import FiniteState.Proofs.Automaton.Language
import FiniteState.Proofs.Automaton.Minimal
import FiniteState.Proofs.Worklist

/-!
# Filling the table in one pass

The table of distinguishable pairs can be filled by going over the pairs once.  A pair some
symbol leads from to a marked pair is marked at once; any other pair waits on each of the pairs
that the symbols lead it to, and is marked as soon as one of these gets marked.  Marking a
pair empties its list of waiting pairs, which are marked in turn.

A pair that was visited is marked, is about to be marked, or waits on all pairs it is led to
and these are unmarked.  Marking keeps this, in whatever order pairs become marked, so when all
pairs were visited the unmarked pairs are closed under the symbols, and none of them is
distinguishable.

## Main definitions

* `WaitTable`, `WaitTable.cascade` — the table with its lists of waiting pairs, and the loop that
  marks a pair with all that wait for it.
* `NumberedMachine.fillInOrder`, `NumberedMachine.onePass` — the pass, in any order of the pairs
  and in the usual one.
* `WaitTable.Valid` — the invariant of the pass.
* `NumberedMachine.Filled` — what a filled table is.

## Main results

* `WaitTable.Valid.cascade` — **marking keeps the invariant**.
* `NumberedMachine.marked_fillInOrder` — **in any order, one pass marks exactly the distinguishable
  pairs**.
* `NumberedMachine.onePass_eq_distinguish` — the result is the table of `distinguish`.
* `NumberedMachine.filled_onePass` — what follows for classes and representatives.
-/

namespace FiniteState

variable {n : ℕ}

/-- A table that is filled in one pass over the pairs. -/
structure WaitTable (n : ℕ) where
  /-- The table. -/
  marks : Marks n
  /-- The pairs to mark as soon as a pair gets marked. -/
  waiting : Fin n × Fin n → List (Fin n × Fin n)

namespace WaitTable

variable {m : NumberedMachine n} {t : WaitTable n} {x y key : Fin n × Fin n}
  {visited stack pairs : List (Fin n × Fin n)}

/-! ### Marking -/

/-- The pair that a symbol leads a pair to. -/
def led (step : Vector (Fin n) n) (x : Fin n × Fin n) : Fin n × Fin n :=
  (step.get x.1, step.get x.2)

/-- The start, without marks, and with no pair waiting. -/
def start : WaitTable n := ⟨.none, fun _ => []⟩

/-- The pair with its lesser state first. -/
def ordered (x : Fin n × Fin n) : Fin n × Fin n := if x.1 ≤ x.2 then x else x.swap

/-- The pair is marked. -/
def Marked (t : WaitTable n) (x : Fin n × Fin n) : Prop := t.marks.marked x.1 x.2 = true

instance (t : WaitTable n) (x : Fin n × Fin n) : Decidable (t.Marked x) :=
  inferInstanceAs (Decidable (t.marks.marked x.1 x.2 = true))

/-- Marks a pair in both orders, and takes the list of the pairs that wait for it. -/
def settle (t : WaitTable n) (x : Fin n × Fin n) : WaitTable n :=
  ⟨(t.marks.mark x.1 x.2).mark x.2 x.1, Function.update t.waiting x []⟩

/-- The pairs without a mark. -/
def unmarked (t : WaitTable n) : Finset (Fin n × Fin n) := Finset.univ.filter fun x => ¬ t.Marked x

theorem marked_settle : (t.settle x).Marked y ↔ y = x ∨ y = x.swap ∨ t.Marked y := by
  simp only [Marked, settle, Marks.marked_mark, Bool.or_eq_true, decide_eq_true_eq, Prod.ext_iff,
    Prod.fst_swap, Prod.snd_swap]
  tauto

theorem card_unmarked_settle (hx : ¬ t.Marked x) :
    (t.settle x).unmarked.card < t.unmarked.card := by
  have hsubset : (t.settle x).unmarked ⊆ t.unmarked := by
    intro y hy
    simp only [unmarked, Finset.mem_filter, Finset.mem_univ, true_and, marked_settle] at hy ⊢
    exact fun hmarked => hy (.inr (.inr hmarked))
  refine Finset.card_lt_card ((Finset.ssubset_iff_of_subset hsubset).2 ⟨x, ?_, ?_⟩)
  · simpa [unmarked] using hx
  · simp [unmarked, marked_settle]

/-- Marks the pairs of a stack, and all that wait for them. -/
def cascade (t : WaitTable n) (stack : List (Fin n × Fin n)) : WaitTable n :=
  match stack with
  | [] => t
  | x :: stack =>
    if t.Marked x then t.cascade stack
    else (t.settle x).cascade (Discipline.stack.put (t.waiting x) stack)
termination_by (t.unmarked.card, stack.length)
decreasing_by
  · exact .right _ (Nat.lt_succ_self _)
  · exact .left _ _ (card_unmarked_settle ‹_›)

/-- Marks a pair and all that wait for it. -/
def mark (t : WaitTable n) (x : Fin n × Fin n) : WaitTable n := t.cascade [ordered x]

/-- A pair waits on another one. -/
def waitOn (x : Fin n × Fin n) (t : WaitTable n) (key : Fin n × Fin n) : WaitTable n :=
  { t with waiting := Function.update t.waiting (ordered key) (t.waiting (ordered key) ++ [x]) }

/-! ### The invariant -/

theorem ordered_of_le (h : x.1 ≤ x.2) : ordered x = x := if_pos h

theorem ordered_eq (x : Fin n × Fin n) : ordered x = x ∨ ordered x = x.swap := by
  unfold ordered
  split
  · exact .inl rfl
  · exact .inr rfl

theorem ordered_swap (x : Fin n × Fin n) : ordered x.swap = ordered x := by
  obtain ⟨u, v⟩ := x
  unfold ordered
  rcases lt_trichotomy u v with huv | rfl | huv
  · simp [huv.le, huv.not_ge]
  · rfl
  · simp [huv.le, huv.not_ge]

/-- **The invariant of the pass**, for the pairs visited and those about to be marked. -/
structure Valid (m : NumberedMachine n) (visited : List (Fin n × Fin n)) (t : WaitTable n)
    (stack : List (Fin n × Fin n)) : Prop where
  /-- Pairs are marked in both orders. -/
  symm : ∀ x, t.Marked x → t.Marked x.swap
  /-- Only distinguishable pairs are marked or about to be. -/
  sound : ∀ x, t.Marked x ∨ x ∈ stack → m.Distinguishable x.1 x.2
  /-- The pairs about to be marked have their lesser state first. -/
  stack_le : ∀ x ∈ stack, x.1 ≤ x.2
  /-- So have the pairs that wait, and some symbol leads them to the pair they wait for. -/
  waits : ∀ key, ∀ x ∈ t.waiting key,
    x.1 ≤ x.2 ∧ ∃ step ∈ m.steps, ordered (led step x) = key
  /-- A pair that was visited is marked, or about to be, or waits on all pairs it is led to. -/
  passed : ∀ x ∈ visited, t.Marked x ∨ x ∈ stack ∨
    ∀ step ∈ m.steps, (led step x).1 ≠ (led step x).2 →
      ¬ t.Marked (led step x) ∧ x ∈ t.waiting (ordered (led step x))

namespace Valid

/-- A pair on the stack that is marked already can be dropped. -/
theorem drop (h : Valid m visited t (x :: stack)) (hx : t.Marked x) : Valid m visited t stack where
  symm := h.symm
  sound y hy := h.sound y (hy.imp_right (List.mem_cons_of_mem x))
  stack_le y hy := h.stack_le y (List.mem_cons_of_mem x hy)
  waits := h.waits
  passed y hy := by
    rcases h.passed y hy with hy | hy | hy
    · exact .inl hy
    · rcases List.mem_cons.1 hy with rfl | hy
      · exact .inl hx
      · exact .inr (.inl hy)
    · exact .inr (.inr hy)

/-- A pair that waits for a distinguishable pair is distinguishable. -/
theorem distinguishable_of_waiting (h : Valid m visited t stack)
    (hkey : m.Distinguishable key.1 key.2) (hx : x ∈ t.waiting key) :
    m.Distinguishable x.1 x.2 := by
  obtain ⟨-, step, hstep, rfl⟩ := h.waits key x hx
  refine .later hstep ?_
  rcases ordered_eq (led step x) with heq | heq
  · rwa [heq] at hkey
  · rw [heq] at hkey
    exact hkey.symm

/-- **Marking a pair keeps the invariant**, if the pairs that wait for it are marked next. -/
theorem settle (h : Valid m visited t (x :: stack)) :
    Valid m visited (t.settle x) (Discipline.stack.put (t.waiting x) stack) where
  symm y hy := by
    rw [marked_settle] at hy ⊢
    rcases hy with rfl | rfl | hy
    · exact .inr (.inl rfl)
    · exact .inl (Prod.swap_swap x)
    · exact .inr (.inr (h.symm y hy))
  sound y hy := by
    have hx := h.sound x (.inr List.mem_cons_self)
    simp only [marked_settle, Discipline.mem_put] at hy
    rcases hy with (rfl | rfl | hy) | hy | hy
    · exact hx
    · exact hx.symm
    · exact h.sound y (.inl hy)
    · exact h.distinguishable_of_waiting hx hy
    · exact h.sound y (.inr (List.mem_cons_of_mem x hy))
  stack_le y hy := by
    rcases Discipline.mem_put.1 hy with hy | hy
    · exact (h.waits x y hy).1
    · exact h.stack_le y (List.mem_cons_of_mem x hy)
  waits key y hy := by
    by_cases hkey : key = x
    · subst hkey
      simp [WaitTable.settle] at hy
    · exact h.waits key y (by simpa [WaitTable.settle, hkey] using hy)
  passed y hy := by
    have hx := ordered_of_le (h.stack_le x List.mem_cons_self)
    rcases h.passed y hy with hy | hy | hy
    · exact .inl (marked_settle.2 (.inr (.inr hy)))
    · rcases List.mem_cons.1 hy with rfl | hy
      · exact .inl (marked_settle.2 (.inl rfl))
      · exact .inr (.inl (Discipline.mem_put.2 (.inr hy)))
    · -- if the pair waits for the one that is marked, it is marked next
      by_cases hnext : y ∈ t.waiting x
      · exact .inr (.inl (Discipline.mem_put.2 (.inl hnext)))
      · refine .inr (.inr fun step hstep hne => ?_)
        obtain ⟨hunmarked, hwaits⟩ := hy step hstep hne
        have hother : ordered (led step y) ≠ x := fun heq => hnext (heq ▸ hwaits)
        refine ⟨fun hmarked => ?_, ?_⟩
        · rcases marked_settle.1 hmarked with heq | heq | hmarked
          · exact hother (by rw [heq, hx])
          · exact hother (by rw [heq, ordered_swap, hx])
          · exact hunmarked hmarked
        · simpa [WaitTable.settle, hother] using hwaits

/-- **So does the whole cascade.** -/
theorem cascade (h : Valid m visited t stack) : Valid m visited (t.cascade stack) [] := by
  fun_induction WaitTable.cascade t stack with
  | case1 t => exact h
  | case2 t x stack hx ih => exact ih (h.drop hx)
  | case3 t x stack hx ih => exact ih h.settle

end Valid

/-- What was marked, or about to be, is marked in the end. -/
theorem marked_cascade (hx : t.Marked x ∨ x ∈ stack) : (t.cascade stack).Marked x := by
  fun_induction WaitTable.cascade t stack with
  | case1 t => exact hx.resolve_right List.not_mem_nil
  | case2 t y stack hy ih =>
    refine ih (hx.elim .inl fun hx => ?_)
    rcases List.mem_cons.1 hx with rfl | hx
    · exact .inl hy
    · exact .inr hx
  | case3 t y stack hy ih =>
    refine ih (hx.elim (fun hx => .inl (marked_settle.2 (.inr (.inr hx)))) fun hx => ?_)
    rcases List.mem_cons.1 hx with rfl | hx
    · exact .inl (marked_settle.2 (.inl rfl))
    · exact .inr (Discipline.mem_put.2 (.inr hx))

theorem ordered_le (x : Fin n × Fin n) : (ordered x).1 ≤ (ordered x).2 := by
  unfold ordered
  split
  · assumption
  · exact (lt_of_not_ge ‹_›).le

/-- A distinguishable pair can be marked. -/
theorem Valid.mark (h : Valid m visited t []) (hx : m.Distinguishable x.1 x.2) :
    Valid m visited (t.mark x) [] ∧ (t.mark x).Marked x := by
  have hordered : m.Distinguishable (ordered x).1 (ordered x).2 := by
    rcases ordered_eq x with heq | heq
    · rwa [heq]
    · rw [heq]
      exact hx.symm
  have hpushed : Valid m visited t [ordered x] := {
    h with
    sound := fun y hy => by
      rcases hy with hy | hy
      · exact h.sound y (.inl hy)
      · rwa [List.mem_singleton.1 hy]
    stack_le := fun y hy => by
      rw [List.mem_singleton.1 hy]
      exact ordered_le x
    passed := fun y hy =>
      (h.passed y hy).imp_right fun hy => .inr (hy.resolve_left List.not_mem_nil) }
  have hmarked : (t.mark x).Marked (ordered x) := marked_cascade (.inr (List.mem_singleton_self _))
  refine ⟨hpushed.cascade, ?_⟩
  rcases ordered_eq x with heq | heq
  · rwa [heq] at hmarked
  · rw [heq] at hmarked
    exact hpushed.cascade.symm _ hmarked

/-! ### Waiting -/

theorem marks_foldl_waitOn : (pairs.foldl (waitOn x) t).marks = t.marks := by
  induction pairs generalizing t with
  | nil => rfl
  | cons p pairs ih => exact ih

theorem mem_waiting_foldl_waitOn : y ∈ (pairs.foldl (waitOn x) t).waiting key ↔
    y ∈ t.waiting key ∨ y = x ∧ ∃ p ∈ pairs, ordered p = key := by
  induction pairs generalizing t with
  | nil => simp
  | cons p pairs ih =>
    have hfirst : y ∈ (t.waitOn x p).waiting key ↔
        y ∈ t.waiting key ∨ y = x ∧ ordered p = key := by
      by_cases hkey : key = ordered p
      · simp [waitOn, hkey]
      · simp [waitOn, hkey, Ne.symm hkey]
    rw [List.foldl_cons, ih, hfirst]
    simp only [List.mem_cons, exists_eq_or_imp]
    tauto

end WaitTable

/-! ### The pass -/

namespace NumberedMachine

open WaitTable

variable {m : NumberedMachine n} {t : WaitTable n} {x y : Fin n × Fin n} {u v : Fin n}
  {visited order : List (Fin n × Fin n)} {step : Vector (Fin n) n}

/-- Marks a pair if the empty word tells its states apart. -/
def seedPair (m : NumberedMachine n) (t : WaitTable n) (x : Fin n × Fin n) : WaitTable n :=
  if m.accepting.get x.1 != m.accepting.get x.2 then t.mark x else t

/-- The pairs of different states that the symbols lead a pair to. -/
def successorPairs (m : NumberedMachine n) (x : Fin n × Fin n) : List (Fin n × Fin n) :=
  (m.steps.map fun step => led step x).filter fun p => p.1 != p.2

/-- Visits a pair: it is marked if a symbol leads it to a marked pair, and waits on all pairs that
it is led to otherwise. -/
def visitPair (m : NumberedMachine n) (t : WaitTable n) (x : Fin n × Fin n) : WaitTable n :=
  if t.Marked x then t
  else if (m.successorPairs x).any fun p => t.marks.marked p.1 p.2 then t.mark x
  else (m.successorPairs x).foldl (waitOn x) t

/-- The table filled by going over some pairs in order, once for the empty word and once for the
symbols. -/
def fillInOrder (m : NumberedMachine n) (order : List (Fin n × Fin n)) : Marks n :=
  (order.foldl m.visitPair (order.foldl m.seedPair .start)).marks

/-- The pairs of different states, each with the lesser one first, row by row. -/
def ascendingPairs (n : ℕ) : List (Fin n × Fin n) :=
  (List.finRange n).flatMap fun u => ((List.finRange n).filter (u < ·)).map fun v => (u, v)

/-- **The table filled in one pass**, row by row. -/
def onePass (m : NumberedMachine n) : Marks n := m.fillInOrder (ascendingPairs n)

theorem mem_ascendingPairs : x ∈ ascendingPairs n ↔ x.1 < x.2 := by
  obtain ⟨u, v⟩ := x
  simp [ascendingPairs]

theorem mem_successorPairs :
    y ∈ m.successorPairs x ↔ (∃ step ∈ m.steps, led step x = y) ∧ y.1 ≠ y.2 := by
  rw [successorPairs, List.mem_filter, List.mem_map, bne_iff_ne]

theorem valid_start : Valid m [] .start [] where
  symm x hx := by simp [Marked, start] at hx
  sound x hx := by simp [Marked, start] at hx
  stack_le x hx := absurd hx List.not_mem_nil
  waits key x hx := absurd hx List.not_mem_nil
  passed x hx := absurd hx List.not_mem_nil

/-- A turn of the first loop marks the pair if the empty word tells its states apart. -/
theorem valid_seedPair (h : Valid m visited t []) (x : Fin n × Fin n) :
    Valid m visited (m.seedPair t x) [] ∧
      (m.accepting.get x.1 ≠ m.accepting.get x.2 → (m.seedPair t x).Marked x) ∧
      ∀ y, t.Marked y → (m.seedPair t x).Marked y := by
  unfold seedPair
  split
  · rename_i hne
    obtain ⟨hvalid, hmarked⟩ := h.mark (.now (bne_iff_ne.1 hne))
    exact ⟨hvalid, fun _ => hmarked, fun y hy => marked_cascade (.inl hy)⟩
  · rename_i heq
    exact ⟨h, fun hne => absurd (bne_iff_ne.2 hne) heq, fun y hy => hy⟩

theorem valid_foldl_seedPair (order : List (Fin n × Fin n)) (h : Valid m visited t []) :
    Valid m visited (order.foldl m.seedPair t) [] ∧
      (∀ x ∈ order, m.accepting.get x.1 ≠ m.accepting.get x.2 →
        (order.foldl m.seedPair t).Marked x) ∧
      ∀ x, t.Marked x → (order.foldl m.seedPair t).Marked x := by
  induction order generalizing t with
  | nil => exact ⟨h, fun x hx => absurd hx List.not_mem_nil, fun x hx => hx⟩
  | cons y order ih =>
    obtain ⟨hturn, hmarked, hkept⟩ := valid_seedPair h y
    obtain ⟨hrest, hmarks, hmore⟩ := ih hturn
    refine ⟨hrest, fun x hx hne => ?_, fun x hx => hmore x (hkept x hx)⟩
    rcases List.mem_cons.1 hx with rfl | hx
    · exact hmore x (hmarked hne)
    · exact hmarks x hx hne

/-- **A turn of the second loop**: the pair is visited, and no mark is lost. -/
theorem valid_visitPair (h : Valid m visited t []) (hx : x.1 ≤ x.2) :
    Valid m (x :: visited) (m.visitPair t x) [] ∧
      ∀ y, t.Marked y → (m.visitPair t x).Marked y := by
  unfold visitPair
  split
  · -- the pair is marked already
    rename_i hmarked
    refine ⟨{ h with passed := fun y hy => ?_ }, fun y hy => hy⟩
    rcases List.mem_cons.1 hy with rfl | hy
    · exact .inl hmarked
    · exact h.passed y hy
  split
  · -- a symbol leads it to a marked pair
    rename_i hany
    obtain ⟨p, hp, hpmarked⟩ := List.any_eq_true.1 hany
    obtain ⟨⟨step, hstep, rfl⟩, -⟩ := mem_successorPairs.1 hp
    obtain ⟨hvalid, hmarked⟩ := h.mark (.later hstep (h.sound _ (.inl hpmarked)))
    refine ⟨{ hvalid with passed := fun y hy => ?_ }, fun y hy => marked_cascade (.inl hy)⟩
    rcases List.mem_cons.1 hy with rfl | hy
    · exact .inl hmarked
    · exact hvalid.passed y hy
  · -- it waits on all pairs that the symbols lead it to
    rename_i hnone
    have hsame (y : Fin n × Fin n) : ((m.successorPairs x).foldl (waitOn x) t).Marked y ↔
        t.Marked y := by
      rw [Marked, marks_foldl_waitOn, Marked]
    refine ⟨?_, fun y hy => (hsame y).2 hy⟩
    exact {
      symm := fun y hy => (hsame _).2 (h.symm y ((hsame y).1 hy))
      sound := fun y hy => h.sound y (hy.imp_left (hsame y).1)
      stack_le := h.stack_le
      waits := fun key y hy => by
        rcases mem_waiting_foldl_waitOn.1 hy with hy | ⟨rfl, p, hp, rfl⟩
        · exact h.waits key y hy
        · obtain ⟨⟨step, hstep, rfl⟩, -⟩ := mem_successorPairs.1 hp
          exact ⟨hx, step, hstep, rfl⟩
      passed := fun y hy => by
        simp only [hsame, mem_waiting_foldl_waitOn]
        rcases List.mem_cons.1 hy with rfl | hy
        · refine .inr (.inr fun step hstep hne => ?_)
          have hmem := mem_successorPairs.2 ⟨⟨step, hstep, rfl⟩, hne⟩
          refine ⟨fun hmarked => hnone (List.any_eq_true.2 ⟨_, hmem, hmarked⟩), ?_⟩
          exact .inr ⟨rfl, _, hmem, rfl⟩
        · refine (h.passed y hy).imp_right (.imp_right fun hy step hstep hne => ?_)
          exact ⟨(hy step hstep hne).1, .inl (hy step hstep hne).2⟩ }

theorem valid_foldl_visitPair (h : Valid m visited t []) (horder : ∀ x ∈ order, x.1 ≤ x.2) :
    Valid m (order.reverse ++ visited) (order.foldl m.visitPair t) [] ∧
      ∀ x, t.Marked x → (order.foldl m.visitPair t).Marked x := by
  induction order generalizing t visited with
  | nil => exact ⟨h, fun x hx => hx⟩
  | cons y order ih =>
    obtain ⟨hturn, hkept⟩ := valid_visitPair h (horder y List.mem_cons_self)
    obtain ⟨hrest, hmore⟩ := ih hturn fun x hx => horder x (List.mem_cons_of_mem y hx)
    refine ⟨?_, fun x hx => hmore x (hkept x hx)⟩
    rwa [List.reverse_cons, List.append_assoc]

/-! ### The filled table -/

/-- A visited pair is marked when a symbol leads it to a marked pair. -/
theorem marked_of_led (h : Valid m visited t []) (hx : x ∈ visited) (hstep : step ∈ m.steps)
    (hled : t.Marked (led step x)) : t.Marked x := by
  rcases h.passed x hx with hmarked | hstack | hwaits
  · exact hmarked
  · exact absurd hstack List.not_mem_nil
  · refine absurd hled (hwaits step hstep fun heq => ?_).1
    -- no state is distinguishable from itself
    have hself := h.sound _ (.inl hled)
    rw [heq] at hself
    exact Distinguishable.irrefl _ hself

/-- **When all pairs were visited, the distinguishable ones are marked.** -/
theorem marked_of_distinguishable (h : Valid m visited t [])
    (hvisited : ∀ x : Fin n × Fin n, x.1 < x.2 → x ∈ visited)
    (hseeded : ∀ x : Fin n × Fin n, x.1 < x.2 → m.accepting.get x.1 ≠ m.accepting.get x.2 →
      t.Marked x)
    (huv : m.Distinguishable u v) : t.Marked (u, v) := by
  induction huv with
  | @now u v hne =>
    rcases lt_trichotomy u v with hlt | rfl | hlt
    · exact hseeded (u, v) hlt hne
    · exact absurd rfl hne
    · exact h.symm (v, u) (hseeded (v, u) hlt hne.symm)
  | @later u v step hstep hdist ih =>
    rcases lt_trichotomy u v with hlt | rfl | hlt
    · exact marked_of_led h (hvisited (u, v) hlt) hstep ih
    · exact absurd hdist (Distinguishable.irrefl _)
    · exact h.symm (v, u) (marked_of_led h (hvisited (v, u) hlt) hstep (h.symm _ ih))

/-- **In any order, one pass marks exactly the distinguishable pairs.** -/
theorem marked_fillInOrder (horder : ∀ x, x ∈ order ↔ x.1 < x.2) :
    (m.fillInOrder order).marked u v = true ↔ m.Distinguishable u v := by
  obtain ⟨hseeds, hseeded, -⟩ := valid_foldl_seedPair order (valid_start (m := m))
  obtain ⟨hvalid, hkept⟩ := valid_foldl_visitPair hseeds fun x hx => ((horder x).1 hx).le
  constructor
  · exact fun hmarked => hvalid.sound (u, v) (.inl hmarked)
  · refine marked_of_distinguishable hvalid (fun x hx => ?_) fun x hx hne => ?_
    · exact List.mem_append_left _ (List.mem_reverse.2 ((horder x).2 hx))
    · exact hkept x (hseeded x ((horder x).2 hx) hne)

end NumberedMachine

namespace Marks

/-- Every place of a table is that of a pair. -/
theorem exists_place_eq (p : Fin (n * n)) : ∃ u v : Fin n, place u v = p := by
  obtain ⟨i, hi⟩ := p
  have hn : 0 < n := Nat.pos_of_ne_zero fun hzero => by simp [hzero] at hi
  exact ⟨⟨i / n, Nat.div_lt_of_lt_mul hi⟩, ⟨i % n, Nat.mod_lt i hn⟩,
    Fin.ext (Nat.div_add_mod' i n)⟩

/-- A table is determined by its marks. -/
theorem ext_marked {s t : Marks n} (h : ∀ u v, s.marked u v = t.marked u v) : s = t := by
  refine congrArg Marks.mk (Vector.ext fun i hi => ?_)
  have hplaces (p : Fin (n * n)) : s.table[p] = t.table[p] := by
    obtain ⟨u, v, rfl⟩ := exists_place_eq p
    exact h u v
  exact hplaces ⟨i, hi⟩

end Marks

namespace NumberedMachine

variable {m : NumberedMachine n} {u v : Fin n} {order : List (Fin n × Fin n)}

/-- **One pass gives the table of distinguishable pairs.** -/
theorem fillInOrder_eq_distinguish (horder : ∀ x, x ∈ order ↔ x.1 < x.2) :
    m.fillInOrder order = m.distinguish :=
  Marks.ext_marked fun u v =>
    Bool.eq_iff_iff.2 ((marked_fillInOrder horder).trans (m.marked_distinguish u v).symm)

/-- The state that some symbols lead a state to, one after the other. -/
def run (u : Fin n) (word : List (Vector (Fin n) n)) : Fin n :=
  word.foldl (fun v step => step.get v) u

/-- States are distinguishable if some word leads exactly one of them to an accepting state. -/
theorem distinguishable_iff_exists_word : m.Distinguishable u v ↔
    ∃ word : List (Vector (Fin n) n), (∀ step ∈ word, step ∈ m.steps) ∧
      m.accepting.get (run u word) ≠ m.accepting.get (run v word) := by
  constructor
  · intro h
    induction h with
    | now hne => exact ⟨[], fun step hstep => absurd hstep List.not_mem_nil, hne⟩
    | @later u v step hstep _ ih =>
      obtain ⟨word, hword, hne⟩ := ih
      exact ⟨step :: word, List.forall_mem_cons.2 ⟨hstep, hword⟩, hne⟩
  · rintro ⟨word, hword, hne⟩
    induction word generalizing u v with
    | nil => exact .now hne
    | cons step word ih =>
      obtain ⟨hstep, hword⟩ := List.forall_mem_cons.1 hword
      exact .later hstep (ih hword hne)

/-- **What a filled table is.** -/
structure Filled (m : NumberedMachine n) (t : Marks n) : Prop where
  /-- Pairs are marked in both orders. -/
  symm : ∀ u v, t.marked u v = t.marked v u
  /-- A pair is marked iff some word leads exactly one of its states to an accepting state. -/
  marked_iff : ∀ u v, t.marked u v = true ↔
    ∃ word : List (Vector (Fin n) n), (∀ step ∈ word, step ∈ m.steps) ∧
      m.accepting.get (run u word) ≠ m.accepting.get (run v word)
  /-- Being unmarked is an equivalence. -/
  equivalence : Equivalence fun u v => t.marked u v = false
  /-- States of a class accept alike, and the symbols lead them to states of a class. -/
  compatible : ∀ u v, t.marked u v = false → m.accepting.get u = m.accepting.get v ∧
    ∀ step ∈ m.steps, t.marked (step.get u) (step.get v) = false
  /-- The representative of a state is the least member of its class. -/
  representative : ∀ u, t.marked (t.representative u) u = false ∧
    ∀ v, t.marked v u = false → t.representative u ≤ v

theorem marked_distinguish_eq_false :
    m.distinguish.marked u v = false ↔ ¬ m.Distinguishable u v := by
  rw [← Bool.not_eq_true, marked_distinguish]

/-- No state before the representative is unmarked. -/
theorem representative_le (h : ¬ m.Distinguishable v u) : m.distinguish.representative u ≤ v := by
  obtain ⟨w, hfind, rfl, -⟩ := m.find?_representative u
  obtain ⟨-, before, after, hsplit, hbefore⟩ := List.find?_eq_some_iff_append.1 hfind
  have hmem : v ∈ before ++ m.distinguish.representative u :: after := hsplit ▸ List.mem_finRange v
  have hsorted : (before ++ m.distinguish.representative u :: after).Pairwise (· < ·) :=
    hsplit ▸ List.pairwise_lt_finRange n
  rcases List.mem_append.1 hmem with hv | hv
  · have hmarked := hbefore v hv
    rw [marked_distinguish_eq_false.2 h] at hmarked
    exact absurd hmarked (by decide)
  · rcases List.mem_cons.1 hv with rfl | hv
    · exact le_rfl
    · exact ((List.pairwise_cons.1 (List.pairwise_append.1 hsorted).2.1).1 v hv).le

theorem filled_distinguish (m : NumberedMachine n) : m.Filled m.distinguish where
  symm u v := by
    rw [Bool.eq_iff_iff, marked_distinguish, marked_distinguish]
    exact ⟨.symm, .symm⟩
  marked_iff u v := (m.marked_distinguish u v).trans distinguishable_iff_exists_word
  equivalence := by
    simp only [marked_distinguish_eq_false]
    exact {
      refl := Distinguishable.irrefl
      symm := fun h hsymm => h hsymm.symm
      trans := fun {u v w} huv hvw h => (h.left_or_right v).elim huv hvw }
  compatible u v huv := by
    rw [marked_distinguish_eq_false] at huv
    refine ⟨by_contra fun hne => huv (.now hne), fun step hstep => ?_⟩
    rw [marked_distinguish_eq_false]
    exact fun h => huv (.later hstep h)
  representative u := by
    simp only [marked_distinguish_eq_false]
    exact ⟨m.not_distinguishable_representative u, fun v => representative_le⟩

/-- **One pass fills the table.** -/
theorem filled_onePass (m : NumberedMachine n) :
    m.onePass = m.distinguish ∧ m.Filled m.onePass := by
  have heq : m.onePass = m.distinguish := fillInOrder_eq_distinguish fun x => mem_ascendingPairs
  exact ⟨heq, heq ▸ m.filled_distinguish⟩

end NumberedMachine

/-! ### The completed machine of an automaton -/

namespace Automaton

variable {fa : Automaton}

/-- **Filling the table computes exactly distinguishability.**  On a complete machine with any
number of states, one pass gives the same table as the spreading of marks, and it is filled as it
should be.  On the completed machine of a deterministic automaton, a pair is marked iff some word
leads exactly one of its states to an accepting one, and the sink is alone in its class. -/
theorem Obtainable.table_filling (h : fa.Obtainable) (hflag : fa.determinized = true) :
    (∀ {k : ℕ} (m : NumberedMachine k), m.onePass = m.distinguish ∧ m.Filled m.onePass) ∧
      (∀ u v, fa.live.numbered.onePass.marked u v = true ↔
        ∃ w, ¬ (fa.live.NumberAccepts u w ↔ fa.live.NumberAccepts v w)) ∧
      ∀ u, fa.live.numbered.onePass.marked u fa.live.sink = false ↔ u = fa.live.sink := by
  have htrimmed := h.wellFormed.trimmed_live (h.wellFormed.deterministic hflag)
  have htable := fa.live.numbered.filled_onePass.1
  refine ⟨fun m => m.filled_onePass, fun u v => ?_, fun u => ?_⟩
  · rw [htable, NumberedMachine.marked_distinguish, htrimmed.distinguishable_iff]
  · rw [htable, NumberedMachine.marked_distinguish_eq_false,
      ← NumberedMachine.representative_eq_iff]
    have hsink : fa.live.least fa.live.sink = fa.live.sink := htrimmed.least_eq_sink_iff.2 rfl
    exact (Eq.congr_right hsink).trans htrimmed.least_eq_sink_iff

/-- Two states of four accept the same words, and the transitions of all four have gaps. -/
theorem table_filling_two_alike :
    ∃ fa : Automaton, fa.Obtainable ∧ fa.determinized = true ∧ fa.live.states.length = 4 ∧
      fa.live.numbered.onePass.marked (fa.live.number "A") (fa.live.number "B") = false ∧
      (∃ w, ¬ (fa.live.NumberAccepts (fa.live.number "S") w ↔
        fa.live.NumberAccepts (fa.live.number "A") w)) ∧
      fa.live.numbered.onePass.representative (fa.live.number "B") = fa.live.number "A" ∧
      ∀ u, fa.live.numbered.onePass.marked u fa.live.sink = false ↔ u = fa.live.sink := by
  have h := (Obtainable.ofText "S -> aA | bB\nA -> a\nB -> a").edit .determinize rfl
  obtain ⟨hfilled, hmarked, hsink⟩ := h.table_filling rfl
  refine ⟨_, h, rfl, by decide +kernel, ?_, (hmarked _ _).1 ?_, ?_, hsink⟩
  all_goals
    rw [(hfilled _).1]
    decide +kernel

end Automaton

end FiniteState
