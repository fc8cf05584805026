import Mathlib.Data.Finset.Sort
import Mathlib.Logic.Function.Basic
import FiniteState.Proofs.NatSet.Capacity

/-!
# Sets of numbers as mathematical sets

A kind of number set is used through its operations alone, so it is as good as another kind if all
operations give the same answers, in every order in which they are used.  Sets in a store of
binary digits, sets kept as one number, and finite sets in the sense of mathematics are such kinds.
Of the capacity of a store nothing is seen: it makes no difference to any answer, whether two sets
are compared, united or intersected.

## Main definitions

* `NumberSets` — the operations of a kind of number set.
* `BitStore.sets`, `NatSet.sets`, `NumberSets.finsets` — the three kinds.
* `SetCommand`, `SetAnswer`, `NumberSets.answers` — commands to sets with names, and the answers.
* `NumberSets.Simulates` — one kind does what another kind does.

## Main results

* `NumberSets.Simulates.step`, `NumberSets.Simulates.answers_eq` — **what holds of the operations
  holds of every sequence of commands**.
* `BitStore.Lawful.simulates`, `NatSet.simulates` — sets in a store, and sets kept as a number, do
  what mathematical sets do.
* `NumberSets.answers_exact` — **the three kinds of sets give the same answers**.
-/

namespace FiniteState

/-! ### Kinds of number sets -/

/-- The operations of a kind of number set.  The numbers are words of 32 bits; those that may fail
have an optional result. -/
structure NumberSets (σ : Type) where
  /-- The set without members. -/
  empty : σ
  /-- The set without members, with room for some. -/
  withCapacity : ℕ → σ
  /-- The set of one number, with room for others. -/
  singleton : UInt32 → ℕ → Option σ
  /-- The set of the numbers of a list. -/
  collect : List UInt32 → Option σ
  /-- Whether a number is absent, and the set with this number. -/
  insert : σ → UInt32 → Option (Bool × σ)
  /-- The set of the numbers that are in either set. -/
  union : σ → σ → σ
  /-- The number is a member. -/
  contains : σ → UInt32 → Bool
  /-- There are no members. -/
  isEmpty : σ → Bool
  /-- The number of members. -/
  size : σ → ℕ
  /-- The members, one after the other. -/
  iter : σ → List ℕ
  /-- The list of the members. -/
  toVec : σ → List ℕ
  /-- Two sets have a member in common. -/
  intersects : σ → σ → Bool
  /-- Two sets are equal. -/
  equal : σ → σ → Bool

/-- Sets in a store of binary digits. -/
def BitStore.sets {β : Type} (B : BitStore β) : NumberSets β where
  empty := B.empty
  withCapacity := B.withCapacity
  singleton := B.singleton
  collect := B.collect
  insert := B.insert
  union := B.union
  contains := B.contains
  isEmpty := B.isClear
  size := B.countOnes
  iter b := (B.iter b).map UInt32.toNat
  toVec b := (B.iter b).map UInt32.toNat
  intersects := B.intersects
  equal := B.equal

/-- Sets that are kept as one number. -/
def NatSet.sets : NumberSets NatSet where
  empty := ∅
  withCapacity _ := ∅
  singleton w _ := some (.singleton w.toNat)
  collect ws := some (.ofList (ws.map UInt32.toNat))
  insert s w := some (!s.contains w.toNat, s.insert w.toNat)
  union := union
  contains s w := s.contains w.toNat
  isEmpty := isEmpty
  size := size
  iter := toList
  toVec := toList
  intersects := meets
  equal s t := decide (s = t)

namespace NumberSets

/-- **Mathematical sets.** -/
def finsets : NumberSets (Finset ℕ) where
  empty := ∅
  withCapacity _ := ∅
  singleton w _ := some {w.toNat}
  collect ws := some (ws.map UInt32.toNat).toFinset
  insert T w := some (decide (w.toNat ∉ T), T ∪ {w.toNat})
  union T U := T ∪ U
  contains T w := decide (w.toNat ∈ T)
  isEmpty T := decide (T = ∅)
  size T := T.card
  iter T := T.sort (· ≤ ·)
  toVec T := T.sort (· ≤ ·)
  intersects T U := decide (T ∩ U).Nonempty
  equal T U := decide (T = U)

end NumberSets

/-! ### Commands to sets with names -/

/-- A command to sets with names.  The set named first is the one that is changed or asked. -/
inductive SetCommand (ν : Type)
  | withCapacity (x : ν) (n : ℕ)
  | singleton (x : ν) (w : UInt32) (n : ℕ)
  | collect (x : ν) (ws : List UInt32)
  | insert (x : ν) (w : UInt32)
  | union (x y : ν)
  | clone (x y : ν)
  | contains (x : ν) (w : UInt32)
  | isEmpty (x : ν)
  | size (x : ν)
  | iter (x : ν)
  | toVec (x : ν)
  | intersects (x y : ν)
  | equal (x y : ν)

/-- The answer to a command. -/
inductive SetAnswer
  | done
  | bool (b : Bool)
  | number (n : ℕ)
  | members (l : List ℕ)
  deriving DecidableEq

namespace NumberSets

section Run

variable {σ ν : Type} [DecidableEq ν] (I : NumberSets σ)

/-- The answer to a command, and the sets afterwards. -/
def step (sets : ν → σ) : SetCommand ν → Option (SetAnswer × (ν → σ))
  | .withCapacity x n => some (.done, Function.update sets x (I.withCapacity n))
  | .singleton x w n => (I.singleton w n).map fun s => (.done, Function.update sets x s)
  | .collect x ws => (I.collect ws).map fun s => (.done, Function.update sets x s)
  | .insert x w => (I.insert (sets x) w).map fun (absent, s) =>
    (.bool absent, Function.update sets x s)
  | .union x y => some (.done, Function.update sets x (I.union (sets x) (sets y)))
  | .clone x y => some (.done, Function.update sets x (sets y))
  | .contains x w => some (.bool (I.contains (sets x) w), sets)
  | .isEmpty x => some (.bool (I.isEmpty (sets x)), sets)
  | .size x => some (.number (I.size (sets x)), sets)
  | .iter x => some (.members (I.iter (sets x)), sets)
  | .toVec x => some (.members (I.toVec (sets x)), sets)
  | .intersects x y => some (.bool (I.intersects (sets x) (sets y)), sets)
  | .equal x y => some (.bool (I.equal (sets x) (sets y)), sets)

/-- The answers to several commands, one after the other. -/
def answersFrom : (ν → σ) → List (SetCommand ν) → Option (List SetAnswer)
  | _, [] => some []
  | sets, command :: rest => do
    let (answer, sets) ← I.step sets command
    let answers ← answersFrom sets rest
    return answer :: answers

/-- The answers to several commands, where all sets are empty at first. -/
def answers (commands : List (SetCommand ν)) : Option (List SetAnswer) :=
  I.answersFrom (fun _ => I.empty) commands

end Run

/-- **One kind of sets does what another kind does**, where a relation holds between the sets. -/
structure Simulates {σ τ : Type} (I : NumberSets σ) (J : NumberSets τ) (R : σ → τ → Prop) :
    Prop where
  empty : R I.empty J.empty
  withCapacity : ∀ n, R (I.withCapacity n) (J.withCapacity n)
  singleton : ∀ w n, Option.Rel R (I.singleton w n) (J.singleton w n)
  collect : ∀ ws, Option.Rel R (I.collect ws) (J.collect ws)
  insert : ∀ {s t}, R s t → ∀ w,
    Option.Rel (fun a b => a.1 = b.1 ∧ R a.2 b.2) (I.insert s w) (J.insert t w)
  union : ∀ {s t s' t'}, R s t → R s' t' → R (I.union s s') (J.union t t')
  contains : ∀ {s t}, R s t → ∀ w, I.contains s w = J.contains t w
  isEmpty : ∀ {s t}, R s t → I.isEmpty s = J.isEmpty t
  size : ∀ {s t}, R s t → I.size s = J.size t
  iter : ∀ {s t}, R s t → I.iter s = J.iter t
  toVec : ∀ {s t}, R s t → I.toVec s = J.toVec t
  intersects : ∀ {s t s' t'}, R s t → R s' t' → I.intersects s s' = J.intersects t t'
  equal : ∀ {s t s' t'}, R s t → R s' t' → I.equal s s' = J.equal t t'

namespace Simulates

variable {σ τ ν : Type} [DecidableEq ν] {I : NumberSets σ} {J : NumberSets τ} {R : σ → τ → Prop}
  {sets : ν → σ} {sets' : ν → τ}

/-- Results that correspond still do after both were changed alike. -/
theorem rel_map {α α' γ γ' : Type} {r : α → γ → Prop} {r' : α' → γ' → Prop} {x : Option α}
    {y : Option γ} {f : α → α'} {g : γ → γ'} (h : Option.Rel r x y)
    (hfg : ∀ a c, r a c → r' (f a) (g c)) : Option.Rel r' (x.map f) (y.map g) := by
  cases h with
  | some h => exact .some (hfg _ _ h)
  | none => exact .none

/-- Sets that correspond still do when one of them is replaced. -/
theorem rel_update (hsets : ∀ x, R (sets x) (sets' x)) (x : ν) {s : σ} {t : τ} (h : R s t) :
    ∀ y, R (Function.update sets x s y) (Function.update sets' x t y) := by
  intro y
  by_cases hy : y = x
  · subst hy
    rwa [Function.update_self, Function.update_self]
  · rw [Function.update_of_ne hy, Function.update_of_ne hy]
    exact hsets y

/-- **A command has the same answer**, and the sets still correspond. -/
theorem step (h : I.Simulates J R) (hsets : ∀ x, R (sets x) (sets' x)) (command : SetCommand ν) :
    Option.Rel (fun a b => a.1 = b.1 ∧ ∀ x, R (a.2 x) (b.2 x)) (I.step sets command)
      (J.step sets' command) := by
  cases command with
  | withCapacity x n => exact .some ⟨rfl, rel_update hsets x (h.withCapacity n)⟩
  | singleton x w n => exact rel_map (h.singleton w n) fun _ _ h => ⟨rfl, rel_update hsets x h⟩
  | collect x ws => exact rel_map (h.collect ws) fun _ _ h => ⟨rfl, rel_update hsets x h⟩
  | insert x w =>
    exact rel_map (h.insert (hsets x) w) fun _ _ h =>
      ⟨congrArg SetAnswer.bool h.1, rel_update hsets x h.2⟩
  | union x y => exact .some ⟨rfl, rel_update hsets x (h.union (hsets x) (hsets y))⟩
  | clone x y => exact .some ⟨rfl, rel_update hsets x (hsets y)⟩
  | contains x w => exact .some ⟨congrArg SetAnswer.bool (h.contains (hsets x) w), hsets⟩
  | isEmpty x => exact .some ⟨congrArg SetAnswer.bool (h.isEmpty (hsets x)), hsets⟩
  | size x => exact .some ⟨congrArg SetAnswer.number (h.size (hsets x)), hsets⟩
  | iter x => exact .some ⟨congrArg SetAnswer.members (h.iter (hsets x)), hsets⟩
  | toVec x => exact .some ⟨congrArg SetAnswer.members (h.toVec (hsets x)), hsets⟩
  | intersects x y =>
    exact .some ⟨congrArg SetAnswer.bool (h.intersects (hsets x) (hsets y)), hsets⟩
  | equal x y => exact .some ⟨congrArg SetAnswer.bool (h.equal (hsets x) (hsets y)), hsets⟩

theorem answersFrom_eq (h : I.Simulates J R) (commands : List (SetCommand ν))
    (hsets : ∀ x, R (sets x) (sets' x)) :
    I.answersFrom sets commands = J.answersFrom sets' commands := by
  induction commands generalizing sets sets' with
  | nil => rfl
  | cons command rest ih =>
    rw [answersFrom, answersFrom]
    have hstep := h.step hsets command
    generalize I.step sets command = x, J.step sets' command = y at hstep ⊢
    cases hstep with
    | none => rfl
    | @some a b hab =>
      obtain ⟨answer, next⟩ := a
      obtain ⟨answer', next'⟩ := b
      obtain ⟨rfl, hnext⟩ := hab
      show (I.answersFrom next rest).bind _ = (J.answersFrom next' rest).bind _
      rw [ih hnext]

/-- **All commands have the same answers.** -/
theorem answers_eq (h : I.Simulates J R) (commands : List (SetCommand ν)) :
    I.answers commands = J.answers commands := h.answersFrom_eq commands fun _ => h.empty

end Simulates

/-! ### Mathematical sets -/

/-- A list in ascending order is determined by its members. -/
theorem eq_sort {l : List ℕ} {T : Finset ℕ} (hl : l.Pairwise (· < ·)) (hmem : ∀ i, i ∈ l ↔ i ∈ T) :
    l = T.sort (· ≤ ·) :=
  hl.eq_of_mem_iff T.sortedLT_sort.pairwise fun i => (hmem i).trans (T.mem_sort (· ≤ ·)).symm

/-- Commands to mathematical sets are always answered. -/
theorem exists_answers_finsets {ν : Type} [DecidableEq ν] (commands : List (SetCommand ν)) :
    ∃ answers, finsets.answers commands = some answers := by
  have key : ∀ sets : ν → Finset ℕ,
      ∃ answers, finsets.answersFrom sets commands = some answers := by
    induction commands with
    | nil => exact fun _ => ⟨_, rfl⟩
    | cons command rest ih =>
      intro sets
      obtain ⟨⟨answer, next⟩, hstep⟩ : ∃ a, finsets.step sets command = some a := by
        cases command <;> exact ⟨_, rfl⟩
      obtain ⟨answers, hrest⟩ := ih next
      refine ⟨answer :: answers, ?_⟩
      rw [answersFrom, hstep]
      show (finsets.answersFrom next rest).bind _ = _
      rw [hrest]
      rfl
  exact key _

end NumberSets

open NumberSets

/-! ### Sets in a store -/

namespace BitStore

variable {β : Type} {B : BitStore β}

/-- A store holds a set of words. -/
structure Holds (B : BitStore β) (b : β) (T : Finset ℕ) : Prop where
  /-- The ones are at the members. -/
  test_iff : ∀ i, B.test b i = true ↔ i ∈ T
  /-- The members are words. -/
  lt_size : ∀ i ∈ T, i < UInt32.size

namespace Holds

variable {b c : β} {T U : Finset ℕ}

theorem test_eq (hb : B.Holds b T) (i : ℕ) : B.test b i = decide (i ∈ T) := by
  rw [Bool.eq_iff_iff, hb.test_iff, decide_eq_true_iff]

/-- The members in ascending order are the places of the ones, since no word is cut off. -/
theorem map_iter (h : B.Lawful) (hb : B.Holds b T) :
    (B.iter b).map UInt32.toNat = T.sort (· ≤ ·) := by
  have hones : B.ones b = T.sort (· ≤ ·) :=
    eq_sort (h.pairwise_ones b) fun i => (h.mem_ones b i).trans (hb.test_iff i)
  rw [iter, List.map_map, ← hones]
  refine (List.map_congr_left fun i hi => ?_).trans (List.map_id _)
  exact UInt32.toNat_ofNat_of_lt' (hb.lt_size i ((hb.test_iff i).1 ((h.mem_ones b i).1 hi)))

theorem countOnes_eq (h : B.Lawful) (hb : B.Holds b T) : B.countOnes b = T.card := by
  rw [h.countOnes_eq, ← T.length_sort (· ≤ ·), ← hb.map_iter h, iter, List.length_map,
    List.length_map]

theorem empty (hb : ∀ i, B.test b i = false) : B.Holds b ∅ :=
  ⟨fun i => by simp [hb i], by simp⟩

theorem union (h : B.Lawful) (hb : B.Holds b T) (hc : B.Holds c U) :
    B.Holds (B.union b c) (T ∪ U) where
  test_iff i := by rw [h.test_union, hb.test_iff, hc.test_iff, Finset.mem_union]
  lt_size i hi := (Finset.mem_union.1 hi).elim (hb.lt_size i) (hc.lt_size i)

/-- **A word can be inserted.** -/
theorem insert (h : B.Lawful) (hb : B.Holds b T) (w : UInt32) :
    ∃ b', B.insert b w = some (decide (w.toNat ∉ T), b') ∧ B.Holds b' (T ∪ {w.toNat}) := by
  obtain ⟨b', hinsert, htest⟩ := h.insert b w
  refine ⟨b', ?_, fun i => ?_, fun i hi => ?_⟩
  · rw [hinsert, hb.test_eq, decide_not]
  · rw [htest, hb.test_iff, Finset.mem_union, Finset.mem_singleton, or_comm]
  · rcases Finset.mem_union.1 hi with hi | hi
    · exact hb.lt_size i hi
    · rw [Finset.mem_singleton.1 hi]
      exact w.toNat_lt

/-- **The words of a list can be inserted**, one after the other. -/
theorem foldlM_insert (h : B.Lawful) (hb : B.Holds b T) (ws : List UInt32) :
    ∃ b', ws.foldlM (fun b w => (B.insert b w).map Prod.snd) b = some b' ∧
      B.Holds b' (T ∪ (ws.map UInt32.toNat).toFinset) := by
  induction ws generalizing b T with
  | nil => exact ⟨b, rfl, by simpa using hb⟩
  | cons w ws ih =>
    obtain ⟨c, hinsert, hc⟩ := hb.insert h w
    obtain ⟨b', hfold, hb'⟩ := ih hc
    refine ⟨b', ?_, ?_⟩
    · rw [List.foldlM_cons, hinsert]
      exact hfold
    · rwa [List.map_cons, List.toFinset_cons, Finset.insert_eq, ← Finset.union_assoc]

end Holds

/-- **Sets in a store do what mathematical sets do**, whatever the store does about its capacity. -/
theorem Lawful.simulates (h : B.Lawful) : B.sets.Simulates finsets B.Holds where
  empty := .empty h.test_empty
  withCapacity n := .empty (h.test_withCapacity n)
  singleton w n := by
    obtain ⟨b, hinsert, hb⟩ := (Holds.empty (h.test_withCapacity n)).insert h w
    show Option.Rel _ ((B.insert _ w).map Prod.snd) _
    rw [hinsert]
    exact .some hb
  collect ws := by
    obtain ⟨b, hfold, hb⟩ := (Holds.empty h.test_empty).foldlM_insert h ws
    show Option.Rel _ (ws.foldlM _ _) _
    rw [hfold]
    exact .some (by rwa [Finset.empty_union] at hb)
  insert hb w := by
    obtain ⟨b, hinsert, hb⟩ := hb.insert h w
    show Option.Rel _ (B.insert _ w) _
    rw [hinsert]
    exact .some ⟨rfl, hb⟩
  union hb hc := hb.union h hc
  contains hb w := (h.contains_eq _ w).trans (hb.test_eq _)
  isEmpty {b T} hb := by
    show B.isClear b = decide (T = ∅)
    rw [Bool.eq_iff_iff, h.isClear_iff, decide_eq_true_iff, Finset.eq_empty_iff_forall_notMem]
    exact forall_congr' fun i => by rw [← Bool.not_eq_true, hb.test_iff]
  size hb := hb.countOnes_eq h
  iter hb := hb.map_iter h
  toVec hb := hb.map_iter h
  intersects {b T c U} hb hc := by
    show B.intersects b c = decide (T ∩ U).Nonempty
    rw [Bool.eq_iff_iff, h.intersects_iff, decide_eq_true_iff]
    exact exists_congr fun i => by rw [hb.test_iff, hc.test_iff, Finset.mem_inter]
  equal {b T c U} hb hc := by
    show (B.iter b == B.iter c) = decide (T = U)
    rw [Bool.eq_iff_iff, beq_iff_eq, decide_eq_true_iff,
      ← (List.map_injective_iff.2 fun _ _ => UInt32.toNat_inj.1).eq_iff, hb.map_iter h,
      hc.map_iter h]
    refine ⟨fun heq => ?_, fun heq => by rw [heq]⟩
    rw [← T.sort_toFinset (· ≤ ·), heq, U.sort_toFinset]

end BitStore

/-! ### Sets that are kept as one number -/

namespace NatSet

variable {s t : NatSet} {T U : Finset ℕ}

theorem contains_eq (h : ∀ i, i ∈ s ↔ i ∈ T) (i : ℕ) : s.contains i = decide (i ∈ T) := by
  rw [Bool.eq_iff_iff, decide_eq_true_iff]
  exact h i

theorem toList_eq_sort (h : ∀ i, i ∈ s ↔ i ∈ T) : s.toList = T.sort (· ≤ ·) :=
  eq_sort s.pairwise_toList fun i => mem_toList.trans (h i)

theorem eq_iff (h : ∀ i, i ∈ s ↔ i ∈ T) (h' : ∀ i, i ∈ t ↔ i ∈ U) : s = t ↔ T = U := by
  constructor
  · rintro rfl
    exact Finset.ext fun i => (h i).symm.trans (h' i)
  · rintro rfl
    exact ext fun i => (h i).trans (h' i).symm

/-- **Sets that are kept as one number do what mathematical sets do.** -/
theorem simulates : sets.Simulates finsets fun s T => ∀ i, i ∈ s ↔ i ∈ T where
  empty i := iff_of_false (notMem_empty i) (Finset.notMem_empty i)
  withCapacity _ i := iff_of_false (notMem_empty i) (Finset.notMem_empty i)
  singleton w n := .some fun i => by rw [mem_singleton, Finset.mem_singleton]
  collect ws := .some fun i => by rw [mem_ofList, List.mem_toFinset]
  insert h w := .some ⟨by rw [contains_eq h, decide_not], fun i => by
    rw [mem_insert, h, Finset.mem_union, Finset.mem_singleton, or_comm]⟩
  union h h' i := by
    show i ∈ union _ _ ↔ i ∈ _ ∪ _
    rw [mem_union, h, h', Finset.mem_union]
  contains h w := contains_eq h w.toNat
  isEmpty {s T} h := by
    show s.isEmpty = decide (T = ∅)
    rw [Bool.eq_iff_iff, isEmpty_iff, decide_eq_true_iff]
    exact eq_iff h fun i => iff_of_false (notMem_empty i) (Finset.notMem_empty i)
  size h := by
    show (toList _).length = _
    rw [toList_eq_sort h]
    exact Finset.length_sort _
  iter h := toList_eq_sort h
  toVec h := toList_eq_sort h
  intersects {s T t U} h h' := by
    show s.meets t = decide (T ∩ U).Nonempty
    rw [Bool.eq_iff_iff, meets_iff, decide_eq_true_iff]
    exact exists_congr fun i => by rw [h, h', Finset.mem_inter]
  equal h h' := decide_eq_decide.2 (eq_iff h h')

end NatSet

/-! ### The three kinds -/

/-- **The three kinds of sets give the same answers** to all commands, and no command fails: sets in
any store of binary digits, sets kept as one number, and mathematical sets. -/
theorem NumberSets.answers_exact {β ν : Type} [DecidableEq ν] {B : BitStore β} (h : B.Lawful)
    (commands : List (SetCommand ν)) :
    ∃ answers, finsets.answers commands = some answers ∧ B.sets.answers commands = some answers ∧
      NatSet.sets.answers commands = some answers := by
  obtain ⟨answers, hanswers⟩ := exists_answers_finsets commands
  exact ⟨answers, hanswers, (h.simulates.answers_eq commands).trans hanswers,
    (NatSet.simulates.answers_eq commands).trans hanswers⟩

/-- Two sets of one number have different capacities, and one of them is united with a set that has
members beyond its capacity. -/
theorem NumberSets.answers_exact_capacities :
    BitStore.lists.Lawful ∧
      BitStore.lists.sets.answers [.singleton 0 2 3, .singleton 1 2 64, .equal 0 1,
        .collect 2 [40], .insert 2 70, .insert 2 70, .union 0 2, .contains 0 70, .contains 0 500,
        .intersects 1 2, .intersects 0 2, .iter 0, .size 0, .withCapacity (3 : ℕ) 100,
        .isEmpty 3] =
      some [.done, .done, .bool true, .done, .bool true, .bool false, .done, .bool true,
        .bool false, .bool false, .bool true, .members [2, 40, 70], .number 3, .done,
        .bool true] := by
  have hsame (commands : List (SetCommand ℕ)) :
      BitStore.lists.sets.answers commands = NatSet.sets.answers commands := by
    obtain ⟨answers, -, hstore, hnumber⟩ := answers_exact BitStore.lawful_lists commands
    rw [hstore, hnumber]
  refine ⟨BitStore.lawful_lists, ?_⟩
  rw [hsame]
  decide +kernel

end FiniteState
