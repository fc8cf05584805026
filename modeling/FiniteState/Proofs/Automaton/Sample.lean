import FiniteState.Automaton.Sample
import FiniteState.Proofs.Automaton.Language
import FiniteState.Proofs.Draw

/-!
# What a random walk can read

A walk only takes moves to sets of states that hold a useful state.  So the set of
states that it is in is never a dead end: when it does not accept, there is a move,
and the walk goes on until it accepts or has read as many symbols as it may.  The
other way round, the sets of states along an accepted word all hold a useful state,
and at each of them the draws can be chosen so that the walk goes on with the next
symbol of the word.

A walk that ends has drawn finitely many words, so lists of words stand for all
sources of draws.

## Main definitions

* `Automaton.Takes`, `Automaton.Walks` — the draws lead the walk from a set of states
  to another, by one symbol or by a word.
* `Automaton.Promising` — what is known of the states that a walk is in.

## Main results

* `Promising.exists_walks` — **what a walk reads and hands out**.
* `WellFormed.exists_walk_eq` — **every word that leads to an accepting state is read
  with some draws**.
* `Obtainable.sample_exact` — **sampling finds accepted words, and every one of them**.
-/

namespace FiniteState.Automaton

variable {fa : Automaton} {goal S T : LabelSet} {p : Label} {s : Symbol}
  {v w : List Symbol} {draws rest : Draws} {length : ℕ}

/-! ### Walks -/

/-- The walk does not stop in the states, and the draws choose a move on the symbol. -/
def Takes (fa : Automaton) (goal S : LabelSet) (draws : Draws) (s : Symbol) (T : LabelSet)
    (rest : Draws) : Prop :=
  ∃ i between, stops (fa.meetsFinal S) (fa.moves goal S).length draws = (false, between) ∧
    between.choose 32 (fa.moves goal S).length = (i, rest) ∧ (fa.moves goal S)[i]? = some (s, T)

/-- The draws lead the walk from one set of states to another, and it reads the word. -/
inductive Walks (fa : Automaton) (goal : LabelSet) :
    LabelSet → Draws → List Symbol → LabelSet → Draws → Prop
  /-- The walk has not gone on. -/
  | stay (S : LabelSet) (draws : Draws) : Walks fa goal S draws [] S draws
  /-- The walk takes a move and goes on from there. -/
  | go {S T U : LabelSet} {draws between rest : Draws} {s : Symbol} {w : List Symbol} :
    fa.Takes goal S draws s T between → Walks fa goal T between w U rest →
      Walks fa goal S draws (s :: w) U rest

/-- **The moves** are the symbols of the alphabet that lead to a state of the goal. -/
theorem mem_moves : (s, T) ∈ fa.moves goal S ↔
    s ∈ fa.alphabet ∧ s ≠ Symbol.epsilon ∧ fa.step S s = T ∧ ∃ q, q ∈ T ∧ q ∈ goal := by
  simp only [moves, List.mem_filterMap, List.mem_filter, Bool.not_eq_true']
  constructor
  · rintro ⟨t, ⟨ht, hne⟩, hmove⟩
    split at hmove
    · rename_i hmeets
      obtain ⟨rfl, rfl⟩ := Prod.mk.inj (Option.some.inj hmove)
      refine ⟨ht, fun he => ?_, rfl, LabelSet.meets_iff.1 hmeets⟩
      rw [Symbol.isEpsilon_iff.2 he] at hne
      cases hne
    · cases hmove
  · rintro ⟨hs, hne, rfl, hmeets⟩
    refine ⟨s, ⟨hs, ?_⟩, if_pos (LabelSet.meets_iff.2 hmeets)⟩
    rw [Bool.eq_false_iff, Ne, Symbol.isEpsilon_iff]
    exact hne

theorem Takes.mem_moves (h : fa.Takes goal S draws s T rest) : (s, T) ∈ fa.moves goal S := by
  obtain ⟨i, between, -, -, hmove⟩ := h
  exact List.mem_of_getElem? hmove

/-- A walk reads a word as the fold does. -/
theorem Walks.runFrom_eq (h : fa.Walks goal S draws w T rest) : fa.runFrom S w = T := by
  induction h with
  | stay => rfl
  | go htakes _ ih =>
    obtain ⟨-, hne, hstep, -⟩ := mem_moves.1 htakes.mem_moves
    rw [runFrom_cons, read, if_neg (fun he => hne (Symbol.isEpsilon_iff.1 he)), hstep, ih]

/-! ### One round of a walk -/

/-- The walk only stops where it accepts or has no move. -/
theorem eq_zero_or_of_stops {accepting : Bool} {count : ℕ}
    (h : stops accepting count draws = (true, rest)) : count = 0 ∨ accepting = true := by
  rw [stops] at h
  split at h
  · rename_i hzero
    exact .inl hzero
  · split at h
    · rename_i haccepting
      exact .inr haccepting
    · cases h

theorem pos_of_stops_eq_false {accepting : Bool} {count : ℕ}
    (h : stops accepting count draws = (false, rest)) : 0 < count := by
  refine Nat.pos_of_ne_zero fun hzero => ?_
  rw [stops, if_pos hzero] at h
  cases h

/-- In each round the walk stops or takes a move. -/
theorem stops_or_takes (fa : Automaton) (goal S : LabelSet) (draws : Draws) :
    (∃ rest, stops (fa.meetsFinal S) (fa.moves goal S).length draws = (true, rest)) ∨
      ∃ s T rest, fa.Takes goal S draws s T rest := by
  cases hstops : stops (fa.meetsFinal S) (fa.moves goal S).length draws with
  | mk stopped between =>
    cases stopped with
    | true => exact .inl ⟨between, rfl⟩
    | false =>
      have hlt := Draws.choose_lt 32 (pos_of_stops_eq_false hstops) between
      obtain ⟨⟨s, T⟩, hmove⟩ : ∃ move, (fa.moves goal S)[_]? = some move :=
        ⟨_, List.getElem?_eq_getElem hlt⟩
      exact .inr ⟨s, T, _, _, between, hstops, rfl, hmove⟩

theorem walk_of_stops
    (h : stops (fa.meetsFinal S) (fa.moves goal S).length draws = (true, rest)) :
    fa.walk goal (length + 1) S draws = (if fa.meetsFinal S then some [] else none, rest) := by
  rw [walk]
  simp only [h]

theorem walk_of_takes (h : fa.Takes goal S draws s T rest) :
    fa.walk goal (length + 1) S draws =
      ((fa.walk goal length T rest).1.map (s :: ·), (fa.walk goal length T rest).2) := by
  obtain ⟨i, between, hstops, hchoose, hmove⟩ := h
  rw [walk]
  simp only [hstops, hchoose, hmove]

/-! ### Where a walk can be -/

/-- **What is known of the states that a walk is in**: they are closed under transitions
without reading, and one of them is useful. -/
structure Promising (fa : Automaton) (S : LabelSet) : Prop where
  /-- No transition without reading leads out of the set. -/
  closed : ∀ p ∈ S, ∀ q, fa.Path p [] q → q ∈ S
  /-- From some state an accepting one can be reached. -/
  useful : ∃ p ∈ S, fa.Useful p

namespace WellFormed

variable (h : fa.WellFormed)

include h

/-- From a closed set of states the first symbol of a word that leads to an accepting state is
a move, and the rest of the word leads on from the states after it. -/
theorem exists_move_of_acceptsFrom (hclosed : ∀ p ∈ S, ∀ q, fa.Path p [] q → q ∈ S)
    (hp : p ∈ S) (haccepts : fa.AcceptsFrom p (s :: v)) :
    (s, fa.step S s) ∈ fa.moves fa.coreachable S ∧ ∃ q ∈ fa.step S s, fa.AcceptsFrom q v := by
  obtain ⟨f, hf, hpath⟩ := haccepts
  obtain ⟨hne, p', q, hp', hq, hrest⟩ := Path.cons_iff.1 hpath
  have hmem : q ∈ fa.step S s := h.mem_step.2 ⟨p', hclosed p hp p' hp', q, hq, .nil q⟩
  have huseful : fa.Useful q := ⟨v, f, hf, hrest⟩
  have hgoal : q ∈ fa.coreachable := h.mem_coreachable.2 huseful
  exact ⟨mem_moves.2 ⟨h.symbol_mem hq, hne, rfl, q, hmem, hgoal⟩, q, hmem, f, hf, hrest⟩

/-- The states before the first symbol are promising when a word is accepted. -/
theorem promising_start (haccepts : fa.accepts w = true) : fa.Promising fa.start where
  closed := h.closed_start
  useful := by
    obtain ⟨p, hp, hw⟩ := h.accepts_iff.1 haccepts
    exact ⟨p, h.mem_start.2 ⟨p, hp, .nil p⟩, w, hw⟩

/-- **A move keeps the states promising.** -/
theorem promising_of_takes (htakes : fa.Takes fa.coreachable S draws s T rest) :
    fa.Promising T := by
  obtain ⟨-, -, rfl, q, hq, hgoal⟩ := mem_moves.1 htakes.mem_moves
  exact ⟨h.closed_step, q, hq, h.mem_coreachable.1 hgoal⟩

end WellFormed

/-- **Promising states are no dead end**: they accept, or there is a move. -/
theorem Promising.moves_ne_nil (hS : fa.Promising S) (h : fa.WellFormed)
    (hfinal : fa.meetsFinal S = false) : fa.moves fa.coreachable S ≠ [] := by
  obtain ⟨p, hp, w, hw⟩ := hS.useful
  cases w with
  | nil =>
    obtain ⟨f, hf, hpath⟩ := hw
    have hmeets : fa.meetsFinal S = true := meetsFinal_iff.2 ⟨f, hS.closed p hp f hpath, hf⟩
    rw [hfinal] at hmeets
    cases hmeets
  | cons s v => exact List.ne_nil_of_mem (h.exists_move_of_acceptsFrom hS.closed hp hw).1

/-! ### Whole walks -/

/-- **What a walk reads and hands out**, from promising states: the word that it has read, when
it ends where it accepts.  Elsewhere it only ends when it has read as many symbols as it may. -/
theorem Promising.exists_walks (hS : fa.Promising S) (h : fa.WellFormed) (length : ℕ)
    (draws : Draws) : ∃ read T between,
      fa.Walks fa.coreachable S draws read T between ∧ read.length ≤ length ∧
      (fa.walk fa.coreachable length S draws).1 =
        (if fa.meetsFinal T then some read else none) ∧
      (fa.meetsFinal T = false → read.length = length ∧
        (fa.walk fa.coreachable length S draws).2 = between) := by
  induction length generalizing S draws with
  | zero => exact ⟨[], S, draws, .stay S draws, le_rfl, rfl, fun _ => ⟨rfl, rfl⟩⟩
  | succ length ih =>
    obtain ⟨rest, hstops⟩ | ⟨s, T, between, htakes⟩ :=
      stops_or_takes fa fa.coreachable S draws
    · -- the walk stops here, so it accepts
      refine ⟨[], S, draws, .stay S draws, Nat.zero_le _, ?_, fun hfinal => ?_⟩
      · rw [walk_of_stops hstops]
      · have hmoves := hS.moves_ne_nil h hfinal
        rcases eq_zero_or_of_stops hstops with hzero | hmeets
        · exact absurd (List.eq_nil_of_length_eq_zero hzero) hmoves
        · rw [hfinal] at hmeets
          cases hmeets
    · obtain ⟨read, U, last, hwalks, hlength, hresult, hend⟩ :=
        ih (h.promising_of_takes htakes) between
      refine ⟨s :: read, U, last, .go htakes hwalks, Nat.succ_le_succ hlength, ?_, ?_⟩
      · rw [walk_of_takes htakes, hresult]
        cases fa.meetsFinal U <;> rfl
      · intro hfinal
        obtain ⟨hread, hrest⟩ := hend hfinal
        rw [walk_of_takes htakes, List.length_cons, hread]
        exact ⟨rfl, hrest⟩

/-! ### Steering a walk -/

/-- In an accepting set of states some draws make the walk stop. -/
theorem exists_stops_eq_true {accepting : Bool} {count : ℕ} (haccepting : accepting = true)
    (hcount : count < 1 <<< 64) :
    ∃ draws : Draws, ∀ more, stops accepting count (draws ++ more) = (true, more) := by
  by_cases hzero : count = 0
  · exact ⟨[], fun more => if_pos hzero⟩
  · obtain ⟨word, hword⟩ := Draws.exists_choose_eq (le_refl 64) hcount count.succ_pos
    refine ⟨[word], fun more => ?_⟩
    rw [stops, if_neg hzero, if_pos haccepting, List.singleton_append, hword]
    rfl

/-- Where there is a move some draws make the walk go on. -/
theorem exists_stops_eq_false {count : ℕ} (hpos : 0 < count) (hcount : count < 1 <<< 64)
    (accepting : Bool) :
    ∃ draws : Draws, ∀ more, stops accepting count (draws ++ more) = (false, more) := by
  have hzero : ¬count = 0 := by omega
  cases accepting with
  | false =>
    refine ⟨[], fun more => ?_⟩
    rw [stops, if_neg hzero]
    rfl
  | true =>
    obtain ⟨word, hword⟩ :=
      Draws.exists_choose_eq (le_refl 64) hcount (Nat.succ_lt_succ hpos)
    refine ⟨[word], fun more => ?_⟩
    rw [stops, if_neg hzero, if_pos rfl, List.singleton_append, hword]
    rfl

/-- There are no more moves than characters. -/
theorem length_moves_le (h : fa.alphabet.Nodup) (goal S : LabelSet) :
    (fa.moves goal S).length ≤ 1 <<< 32 := by
  have hcodes : (fa.alphabet.map Char.toNat).Nodup := h.map fun _ _ => Char.toNat_inj.1
  have hsub : fa.alphabet.map Char.toNat ⊆ List.range (1 <<< 32) := by
    intro n hn
    obtain ⟨s, -, rfl⟩ := List.mem_map.1 hn
    exact List.mem_range.2 s.val.toNat_lt
  calc (fa.moves goal S).length ≤ fa.alphabet.length :=
        (List.length_filterMap_le ..).trans (List.length_filter_le ..)
    _ = (fa.alphabet.map Char.toNat).length := (List.length_map _).symm
    _ ≤ (List.range (1 <<< 32)).length := (List.subperm_of_subset hcodes hsub).length_le
    _ = 1 <<< 32 := List.length_range

/-- Some draws make the walk take a given move. -/
theorem exists_takes (h : fa.alphabet.Nodup) (hmove : (s, T) ∈ fa.moves goal S) :
    ∃ draws : Draws, ∀ more, fa.Takes goal S (draws ++ more) s T more := by
  obtain ⟨i, hi⟩ := List.getElem?_of_mem hmove
  obtain ⟨hlt, -⟩ := List.getElem?_eq_some_iff.1 hi
  have hcount := length_moves_le h goal S
  obtain ⟨first, hfirst⟩ := exists_stops_eq_false (Nat.zero_lt_of_lt hlt)
    (Nat.lt_of_le_of_lt hcount (by decide)) (fa.meetsFinal S)
  obtain ⟨word, hword⟩ := Draws.exists_choose_eq (by decide : 32 ≤ 64) hcount hlt
  refine ⟨first ++ [word], fun more => ⟨i, word :: more, ?_, hword more, hi⟩⟩
  rw [List.append_assoc, List.singleton_append]
  exact hfirst (word :: more)

/-- **Every word that leads to an accepting state is read with some draws.** -/
theorem WellFormed.exists_walk_eq (h : fa.WellFormed)
    (hclosed : ∀ p ∈ S, ∀ q, fa.Path p [] q → q ∈ S) (hp : p ∈ S) (hw : fa.AcceptsFrom p w)
    (hlength : w.length ≤ length) :
    ∃ draws : Draws, ∀ more,
      fa.walk fa.coreachable length S (draws ++ more) = (some w, more) := by
  induction w generalizing S p length with
  | nil =>
    obtain ⟨f, hf, hpath⟩ := hw
    have hmeets : fa.meetsFinal S = true := meetsFinal_iff.2 ⟨f, hclosed p hp f hpath, hf⟩
    cases length with
    | zero =>
      refine ⟨[], fun more => ?_⟩
      rw [walk, hmeets]
      rfl
    | succ length =>
      have hcount := length_moves_le h.alphabet_nodup fa.coreachable S
      obtain ⟨draws, hstops⟩ :=
        exists_stops_eq_true hmeets (Nat.lt_of_le_of_lt hcount (by decide))
      refine ⟨draws, fun more => ?_⟩
      rw [walk_of_stops (hstops more), hmeets]
      rfl
  | cons s w ih =>
    obtain ⟨length, rfl⟩ := Nat.exists_eq_add_one_of_ne_zero (Nat.ne_zero_of_lt hlength)
    obtain ⟨hmove, q, hq, hrest⟩ := h.exists_move_of_acceptsFrom hclosed hp hw
    obtain ⟨first, hfirst⟩ := exists_takes h.alphabet_nodup hmove
    obtain ⟨draws, hdraws⟩ := ih h.closed_step hq hrest (Nat.le_of_succ_le_succ hlength)
    refine ⟨first ++ draws, fun more => ?_⟩
    rw [List.append_assoc, walk_of_takes (hfirst (draws ++ more)), hdraws more]
    rfl

/-! ### Sampling -/

namespace WellFormed

variable (h : fa.WellFormed)

include h

/-- What sampling needs is there exactly when a word is accepted. -/
theorem checkSampling_eq_ok_iff : fa.checkSampling = .ok () ↔ ∃ w, fa.accepts w = true := by
  rw [checkSampling]
  constructor
  · intro hok
    split at hok
    · cases hok
    · split at hok
      · cases hok
      · rename_i hempty
        by_contra hnone
        refine hempty (h.isEmpty_iff.2 fun w => ?_)
        exact Bool.eq_false_iff.2 fun hw => hnone ⟨w, hw⟩
  · rintro ⟨w, hw⟩
    obtain ⟨p, hp, -⟩ := h.accepts_iff.1 hw
    have hempty : ¬fa.isEmpty = true := by
      rw [h.isEmpty_iff]
      intro hnone
      rw [hnone w] at hw
      cases hw
    rw [hp, Option.isNone_some, if_neg Bool.false_ne_true, if_neg hempty]

/-- **Sampling only fails without an initial state or without an accepted word.** -/
theorem sample_eq_error_iff : (∃ cause, fa.sample length draws = .error cause) ↔
    fa.initial = none ∨ ∀ w, fa.accepts w = false := by
  have hchecked : (∃ cause, fa.sample length draws = .error cause) ↔
      ¬fa.checkSampling = .ok () := by
    rw [sample]
    cases fa.checkSampling with
    | error cause => exact iff_of_true ⟨cause, rfl⟩ nofun
    | ok checked => exact iff_of_false nofun fun hnot => hnot rfl
  rw [hchecked, h.checkSampling_eq_ok_iff]
  constructor
  · exact fun hnone => .inr fun w => Bool.eq_false_iff.2 fun hw => hnone ⟨w, hw⟩
  · rintro hnone ⟨w, hw⟩
    obtain ⟨p, hp, -⟩ := h.accepts_iff.1 hw
    rcases hnone with hinitial | hnone
    · rw [hinitial] at hp
      cases hp
    · rw [hnone w] at hw
      cases hw

/-- Where a word is accepted, sampling walks from the initial state. -/
theorem sample_eq_ok_iff {result : Option (List Symbol) × Draws} :
    fa.sample length draws = .ok result ↔
      (∃ w, fa.accepts w = true) ∧ fa.walk fa.coreachable length fa.start draws = result := by
  rw [← h.checkSampling_eq_ok_iff, sample]
  cases fa.checkSampling with
  | error cause => exact iff_of_false nofun fun hok => nomatch hok.1
  | ok checked =>
    constructor
    · exact fun hok => ⟨rfl, Except.ok.inj hok⟩
    · rintro ⟨-, rfl⟩
      rfl

end WellFormed

/-- **Sampling finds accepted words, and every one of them.**  It fails exactly when
there is no initial state or no accepted word; the word that it hands out is accepted
and not too long; it hands out none only when it has read as many symbols as it may;
and every accepted word that is not too long is found with some draws. -/
theorem Obtainable.sample_exact (h : fa.Obtainable) (maxLength : ℕ) :
    (∀ draws, (∃ cause, fa.sample maxLength draws = .error cause) ↔
      fa.initial = none ∨ ∀ w, fa.accepts w = false) ∧
    (∀ draws w rest, fa.sample maxLength draws = .ok (some w, rest) →
      fa.accepts w = true ∧ w.length ≤ maxLength) ∧
    (∀ draws rest, fa.sample maxLength draws = .ok (none, rest) →
      ∃ read last, fa.Walks fa.coreachable fa.start draws read last rest ∧
        read.length = maxLength ∧ fa.accepts read = false) ∧
    ∀ w, fa.accepts w = true → w.length ≤ maxLength →
      ∃ draws : Draws, ∀ more,
        fa.sample maxLength (draws ++ more) = .ok (some w, more) := by
  have hfa := h.wellFormed
  refine ⟨fun draws => hfa.sample_eq_error_iff, ?_, ?_, ?_⟩
  · intro draws w rest hsample
    obtain ⟨⟨v, hv⟩, hwalk⟩ := hfa.sample_eq_ok_iff.1 hsample
    obtain ⟨read, T, between, hwalks, hlength, hresult, -⟩ :=
      (hfa.promising_start hv).exists_walks hfa maxLength draws
    rw [hwalk] at hresult
    split at hresult
    · rename_i hmeets
      obtain rfl := Option.some.inj hresult
      rw [accepts, run, hwalks.runFrom_eq]
      exact ⟨hmeets, hlength⟩
    · cases hresult
  · intro draws rest hsample
    obtain ⟨⟨v, hv⟩, hwalk⟩ := hfa.sample_eq_ok_iff.1 hsample
    obtain ⟨read, T, between, hwalks, -, hresult, hend⟩ :=
      (hfa.promising_start hv).exists_walks hfa maxLength draws
    rw [hwalk] at hresult hend
    split at hresult
    · cases hresult
    · rename_i hmeets
      obtain ⟨hread, rfl⟩ := hend (Bool.eq_false_iff.2 hmeets)
      refine ⟨read, T, hwalks, hread, ?_⟩
      rw [accepts, run, hwalks.runFrom_eq]
      exact Bool.eq_false_iff.2 hmeets
  · intro w haccepts hlength
    obtain ⟨p, hp, hw⟩ := hfa.accepts_iff.1 haccepts
    have hmem : p ∈ fa.start := hfa.mem_start.2 ⟨p, hp, .nil p⟩
    obtain ⟨draws, hwalk⟩ := hfa.exists_walk_eq hfa.closed_start hmem hw hlength
    exact ⟨draws, fun more => hfa.sample_eq_ok_iff.2 ⟨⟨w, haccepts⟩, hwalk more⟩⟩

/-- Walks of two symbols through the automaton of `a*` find the longest word. -/
theorem sample_exact_star :
    (Regex.PositionTable.ofExpr (.star (.letter 'a'))).automaton.Obtainable ∧
      ∃ draws : Draws, ∀ more,
        (Regex.PositionTable.ofExpr (.star (.letter 'a'))).automaton.sample 2 (draws ++ more) =
          .ok (some ['a', 'a'], more) := by
  have hparse : Regex.parse ['a', '*'] = .ok (.star (.letter 'a')) := rfl
  have h := obtainable_automaton hparse
  exact ⟨h, (h.sample_exact 2).2.2.2 ['a', 'a'] (by decide) (by decide)⟩

end FiniteState.Automaton
