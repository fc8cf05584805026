import FiniteState.Proofs.Label.Replies

/-!
# Pools that keep their letters apart

A pool can keep what is free in three parts: the set of its free letters, the set of all labels in
use, and a counter into the numbered labels `A1` … `Z1`, `A2` ….  A fresh label is the least
letter as long as there is one.  Then the numbered labels are tried one by one, and the counter
never goes back.

The three parts must agree: a label that is excluded may be a letter that the first part still
has, or a numbered label that the counter has passed already or will come to.  They do agree after
any requests, and so the search for a numbered label ends, and this pool gives the same replies as
one that looks for the least free label of the whole sequence.

## Main definitions

* `Label.alphabet`, `Label.numbered` — the letters, and the sequence of numbered labels.
* `SplitPool` — the pool in three parts, with `exclude` and `reserve`.
* `SplitPool.Finds` — the search for a numbered label ends.
* `SplitPool.Step`, `SplitPool.Serves` — a request is served, and several are.
* `SplitPool.Consistent` — the three parts agree.

## Main results

* `SplitPool.exists_finds` — **the search ends**, after at most one more turn than labels are
  in use.
* `SplitPool.exists_step`, `SplitPool.Step.due`, `SplitPool.Step.consistent` — **a
  request is served**, by the reply that is due, and the parts agree afterwards.
* `LabelPool.least_free` — **pools hand out the least free label**, in either representation.
-/

namespace FiniteState

/-! ### Letters and numbered labels -/

namespace Label

/-- The letters in their order. -/
def alphabet : List Char :=
  ['A', 'B', 'C', 'D', 'E', 'F', 'G', 'H', 'I', 'J', 'K', 'L', 'M', 'N', 'O', 'P', 'Q', 'R', 'S',
    'T', 'U', 'V', 'W', 'X', 'Y', 'Z']

/-- The character of a label that is a single letter. -/
def letter? (l : Label) : Option Char :=
  match l.toList with
  | [c] => if c.isUpper then some c else none
  | _ => none

/-- The numbered label at a place: 26 labels with the number one, then 26 with the number two,
and so on. -/
def numbered (i : ℕ) : Label := ofChar (letter i) ++ toString (i / 26 + 1)

variable {l : Label} {c : Char} {i j : ℕ}

theorem alphabet_eq : alphabet = (List.range 26).map letter := by decide

theorem nodup_alphabet : alphabet.Nodup := by decide

theorem mem_alphabet_iff : c ∈ alphabet ↔ c.isUpper = true := by
  rw [alphabet_eq, List.mem_map]
  constructor
  · rintro ⟨i, -, rfl⟩
    exact isUpper_letter i
  · intro h
    have hlo : 65 ≤ c.toNat := (isUpper_iff.1 h).1
    have hhi : c.toNat ≤ 90 := (isUpper_iff.1 h).2
    refine ⟨c.toNat - 65, List.mem_range.2 (by omega), ?_⟩
    have hplace : 65 + (c.toNat - 65) % 26 = c.toNat := by omega
    show Char.ofNat (65 + (c.toNat - 65) % 26) = c
    rw [hplace, Char.ofNat_toNat]

theorem nth_of_lt (hi : i < 26) : nth i = ofChar (letter i) := by
  rw [nth, if_pos hi]

/-- The numbered labels come after the letters. -/
theorem nth_add : nth (26 + i) = numbered i := by
  have hletter : letter (26 + i) = letter i := by
    rw [letter, letter, Nat.add_mod_left]
  have hnumber : (26 + i) / 26 = i / 26 + 1 := by omega
  rw [nth, if_neg (by omega), hletter, hnumber, numbered]

theorem numbered_injective : Function.Injective numbered := by
  intro i j h
  rw [← nth_add, ← nth_add] at h
  exact Nat.add_left_cancel (nth_injective h)

theorem letter?_ofChar (h : c.isUpper = true) : (ofChar c).letter? = some c := by
  rw [letter?, toList_ofChar]
  exact if_pos h

theorem letter?_eq_some_iff : l.letter? = some c ↔ c.isUpper = true ∧ l = ofChar c := by
  constructor
  · intro h
    unfold letter? at h
    split at h
    · rename_i d hd
      obtain ⟨hupper, hc⟩ := Option.ite_none_right_eq_some.1 h
      obtain rfl := Option.some.inj hc
      exact ⟨hupper, by rw [ofChar, ← hd, String.ofList_toList]⟩
    · cases h
  · rintro ⟨hupper, rfl⟩
    exact letter?_ofChar hupper

/-- A numbered label is no letter. -/
theorem letter?_numbered : (numbered i).letter? = none := by
  rw [Option.eq_none_iff_forall_ne_some]
  intro c h
  obtain ⟨-, h⟩ := letter?_eq_some_iff.1 h
  have h := congrArg String.toList h
  rw [← nth_add, toList_nth, if_neg (by omega), toList_ofChar, List.cons.injEq] at h
  exact toList_toString_ne_nil _ h.2

end Label

/-! ### The pool -/

/-- A pool that keeps its free letters apart. -/
structure SplitPool where
  /-- The letters that are free, in their order. -/
  letters : List Char
  /-- The labels that are in use. -/
  used : List Label
  /-- How many numbered labels were tried. -/
  tried : ℕ

namespace SplitPool

open LabelPool (Request Reply Due Exact)

/-- The pool in which every label is free. -/
def full : SplitPool := ⟨Label.alphabet, [], 0⟩

/-- The pool with one more label in use. -/
def exclude (pool : SplitPool) (l : Label) : SplitPool where
  letters :=
    match l.letter? with
    | some c => pool.letters.erase c
    | none => pool.letters
  used := l :: pool.used
  tried := pool.tried

/-- The pool that never hands out any of the labels. -/
def excluding (labels : List Label) : SplitPool := labels.foldl exclude full

/-- Claims a label if it is one of the free letters, and tells whether it was. -/
def reserve (pool : SplitPool) (l : Label) : Bool × SplitPool :=
  match l.letter? with
  | some c => if pool.letters.contains c then (true, pool.exclude l) else (false, pool)
  | none => (false, pool)

/-- **The search for a numbered label**, from one place on, ends at another one: labels in use are
passed over, and the first one that is not in use is found. -/
inductive Finds (used : List Label) : ℕ → ℕ → Prop
  | here {i : ℕ} (h : Label.numbered i ∉ used) : Finds used i i
  | next {i j : ℕ} (h : Label.numbered i ∈ used) (hrest : Finds used (i + 1) j) : Finds used i j

/-- **A request is served.**  The least letter is handed out if one is free, and the numbered label
that is found otherwise; without the end of that search there is no step. -/
inductive Step : SplitPool → Request → Reply → SplitPool → Prop
  | exclude (pool : SplitPool) (l : Label) : Step pool (.exclude l) .done (pool.exclude l)
  | reserve (pool : SplitPool) (l : Label) :
    Step pool (.reserve l) (.granted (pool.reserve l).1) (pool.reserve l).2
  | letter {c : Char} {rest : List Char} {used : List Label} {tried : ℕ} :
    Step ⟨c :: rest, used, tried⟩ .take (.label (.ofChar c)) ⟨rest, .ofChar c :: used, tried⟩
  | numbered {used : List Label} {tried i : ℕ} (h : Finds used tried i) :
    Step ⟨[], used, tried⟩ .take (.label (.numbered i)) ⟨[], .numbered i :: used, i + 1⟩

/-- Several requests are served, one after the other. -/
inductive Serves : SplitPool → List Request → List Reply → SplitPool → Prop
  | nil (pool : SplitPool) : Serves pool [] [] pool
  | cons {pool next last : SplitPool} {request : Request} {reply : Reply}
    {requests : List Request} {replies : List Reply} (h : Step pool request reply next)
    (hrest : Serves next requests replies last) :
    Serves pool (request :: requests) (reply :: replies) last

/-- **The three parts agree.** -/
structure Consistent (pool : SplitPool) : Prop where
  /-- The first part has the letters that are not in use. -/
  letters : pool.letters = Label.alphabet.filter fun c => .ofChar c ∉ pool.used
  /-- The numbered labels that were tried are in use. -/
  tried : ∀ i < pool.tried, Label.numbered i ∈ pool.used

variable {pool next last : SplitPool} {l : Label} {c : Char} {i j : ℕ} {used : List Label}
  {request : Request} {reply : Reply} {requests : List Request} {replies : List Reply}

/-! ### The search -/

/-- What is found is not in use, and what was passed over is. -/
theorem Finds.least (h : Finds used i j) :
    Label.numbered j ∉ used ∧ ∀ k, i ≤ k → k < j → Label.numbered k ∈ used := by
  induction h with
  | here h => exact ⟨h, fun k hle hlt => by omega⟩
  | next h _ ih =>
    refine ⟨ih.1, fun k hle hlt => ?_⟩
    rcases Nat.eq_or_lt_of_le hle with rfl | hle
    · exact h
    · exact ih.2 k hle hlt

/-- If a label that is not in use lies ahead, the search ends, and not behind it. -/
theorem Finds.exists_of_notMem (hle : i ≤ j) (h : Label.numbered j ∉ used) :
    ∃ k ≤ j, Finds used i k := by
  -- the distance to the free label decreases
  induction hle using Nat.decreasingInduction with
  | self => exact ⟨j, le_rfl, .here h⟩
  | of_succ i _ ih =>
    by_cases hi : Label.numbered i ∈ used
    · obtain ⟨k, hk, hfinds⟩ := ih
      exact ⟨k, hk, .next hi hfinds⟩
    · exact ⟨i, by omega, .here hi⟩

/-- **The search ends**, wherever it begins and whatever labels are in use: it passes over no more
labels than are in use. -/
theorem exists_finds (used : List Label) (i : ℕ) : ∃ j ≤ i + used.length, Finds used i j := by
  have hinj : Function.Injective fun k => Label.numbered (i + k) := fun k m h =>
    Nat.add_left_cancel (Label.numbered_injective h)
  obtain ⟨k, hk, hfree⟩ := List.exists_notMem_of_injective hinj used
  obtain ⟨j, hj, hfinds⟩ := Finds.exists_of_notMem (Nat.le_add_right i k) hfree
  exact ⟨j, by omega, hfinds⟩

/-! ### What one request does -/

theorem Consistent.mem_letters_iff (h : pool.Consistent) :
    c ∈ pool.letters ↔ c.isUpper = true ∧ Label.ofChar c ∉ pool.used := by
  rw [h.letters, List.mem_filter, Label.mem_alphabet_iff, decide_eq_true_iff]

theorem Consistent.nodup_letters (h : pool.Consistent) : pool.letters.Nodup := by
  rw [h.letters]
  exact Label.nodup_alphabet.filter _

/-- The parts agree when a label is excluded. -/
theorem Consistent.exclude (h : pool.Consistent) (l : Label) : (pool.exclude l).Consistent where
  letters := by
    rw [SplitPool.exclude]
    cases hl : l.letter? with
    | none =>
      show pool.letters = _
      rw [h.letters]
      refine List.filter_congr fun c hc => decide_eq_decide.2 ?_
      have hne : Label.ofChar c ≠ l := by
        rintro rfl
        rw [Label.letter?_ofChar (Label.mem_alphabet_iff.1 hc)] at hl
        cases hl
      rw [List.mem_cons, or_iff_right hne]
    | some d =>
      obtain ⟨-, rfl⟩ := Label.letter?_eq_some_iff.1 hl
      show pool.letters.erase d = _
      rw [h.nodup_letters.erase_eq_filter, h.letters, List.filter_filter]
      refine List.filter_congr fun c hc => ?_
      rw [Bool.eq_iff_iff, Bool.and_eq_true, bne_iff_ne, decide_eq_true_iff, decide_eq_true_iff,
        List.mem_cons, not_or, Label.ofChar_injective.eq_iff]
  tried i hi := List.mem_cons_of_mem l (h.tried i hi)

/-- The counter may go on to where all numbered labels before it are in use. -/
theorem Consistent.advance (h : pool.Consistent) (hi : ∀ j < i, Label.numbered j ∈ pool.used) :
    Consistent { pool with tried := i } := ⟨h.letters, hi⟩

/-- Whether a letter is reserved, and what becomes of the pool. -/
theorem Consistent.reserve_cases (h : pool.Consistent) (l : Label) :
    (pool.reserve l = (true, pool.exclude l) ∧ l.isLetter = true ∧ l ∉ pool.used) ∨
      (pool.reserve l = (false, pool) ∧ ¬ (l.isLetter = true ∧ l ∉ pool.used)) := by
  rw [reserve]
  cases hl : l.letter? with
  | none =>
    refine .inr ⟨rfl, fun hfree => ?_⟩
    obtain ⟨c, hupper, rfl⟩ := Label.eq_ofChar_of_isLetter hfree.1
    rw [Label.letter?_ofChar hupper] at hl
    cases hl
  | some c =>
    obtain ⟨hupper, rfl⟩ := Label.letter?_eq_some_iff.1 hl
    have hletter : (Label.ofChar c).isLetter = true := Label.isLetter_ofChar.trans hupper
    by_cases hc : c ∈ pool.letters
    · exact .inl ⟨if_pos (List.contains_iff_mem.2 hc), hletter, (h.mem_letters_iff.1 hc).2⟩
    · exact .inr ⟨if_neg (mt List.contains_iff_mem.1 hc),
        fun hfree => hc (h.mem_letters_iff.2 ⟨hupper, hfree.2⟩)⟩

/-- The least of the free letters is the first label of the sequence that is free. -/
theorem Consistent.exists_nth_eq {rest : List Char} (h : pool.Consistent)
    (hletters : pool.letters = c :: rest) :
    ∃ i, Label.ofChar c = Label.nth i ∧ Label.nth i ∉ pool.used ∧
      ∀ j < i, Label.nth j ∈ pool.used := by
  rw [h.letters] at hletters
  obtain ⟨before, after, hsplit, hbefore, hfree, -⟩ := List.filter_eq_cons_iff.1 hletters
  have hget : ∀ j (hj : j < Label.alphabet.length),
      Label.ofChar Label.alphabet[j] = Label.nth j := by
    intro j hj
    rw [Label.nth_of_lt hj]
    simp [Label.alphabet_eq]
  have hlen : before.length < Label.alphabet.length := by
    rw [hsplit, List.length_append, List.length_cons]
    omega
  have hc : Label.ofChar c = Label.nth before.length := by
    rw [← hget _ hlen]
    simp [hsplit]
  refine ⟨before.length, hc, hc ▸ decide_eq_true_iff.1 hfree, fun j hj => ?_⟩
  have hmem : Label.alphabet[j] ∈ before := by
    simp [hsplit, List.getElem_append_left hj]
  rw [← hget j (by omega)]
  simpa using hbefore _ hmem

/-- When no letter is free, all labels before the numbered ones are in use. -/
theorem Consistent.nth_mem_used (h : pool.Consistent) (hletters : pool.letters = []) (hi : i < 26) :
    Label.nth i ∈ pool.used := by
  have hnone := h.letters.symm.trans hletters
  rw [List.filter_eq_nil_iff] at hnone
  have hmem := hnone (Label.letter i) (Label.mem_alphabet_iff.2 (Label.isUpper_letter i))
  rw [Label.nth_of_lt hi]
  simpa using hmem

/-- **A request is served**: no search goes on forever. -/
theorem exists_step (pool : SplitPool) (request : Request) :
    ∃ reply next, Step pool request reply next := by
  cases request with
  | exclude l => exact ⟨_, _, .exclude pool l⟩
  | reserve l => exact ⟨_, _, .reserve pool l⟩
  | take =>
    obtain ⟨letters, used, tried⟩ := pool
    cases letters with
    | nil =>
      obtain ⟨j, -, hfinds⟩ := exists_finds used tried
      exact ⟨_, _, .numbered hfinds⟩
    | cons c rest => exact ⟨_, _, .letter⟩

/-- **The reply is the one that is due.** -/
theorem Step.due (h : Step pool request reply next) (hpool : pool.Consistent) :
    Due {l | l ∈ pool.used} request reply := by
  cases h with
  | exclude l => rfl
  | reserve _ l =>
    refine ⟨_, rfl, ?_⟩
    rw [← Label.isLetter_iff]
    rcases hpool.reserve_cases l with ⟨heq, hfree⟩ | ⟨heq, hfree⟩
    · simpa [heq] using hfree
    · simpa [heq] using hfree
  | letter =>
    obtain ⟨i, heq, hfree, hbelow⟩ := hpool.exists_nth_eq rfl
    exact ⟨i, by rw [heq], hfree, hbelow⟩
  | @numbered used tried i hfinds =>
    refine ⟨26 + i, by rw [Label.nth_add], Label.nth_add ▸ hfinds.least.1, fun j hj => ?_⟩
    rcases Nat.lt_or_ge j 26 with hlt | hge
    · exact hpool.nth_mem_used rfl hlt
    · obtain ⟨k, rfl⟩ := Nat.exists_eq_add_of_le hge
      rw [Label.nth_add]
      -- tried before the search, or passed over by it
      rcases Nat.lt_or_ge k tried with hk | hk
      · exact hpool.tried k hk
      · exact hfinds.least.2 k hk (by omega)

/-- What the request claims is in use from then on. -/
theorem Step.mem_used (h : Step pool request reply next) (hpool : pool.Consistent) :
    l ∈ next.used ↔ request.claims? reply = some l ∨ l ∈ pool.used := by
  have hclaimed : ∀ m : Label, l ∈ m :: pool.used ↔ some m = some l ∨ l ∈ pool.used :=
    fun m => by rw [List.mem_cons, Option.some.injEq, eq_comm]
  cases h with
  | exclude _ m => exact hclaimed m
  | reserve _ m =>
    rcases hpool.reserve_cases m with ⟨heq, -⟩ | ⟨heq, -⟩
    · rw [heq]
      exact hclaimed m
    · rw [heq]
      exact (or_iff_right (Option.some_ne_none l).symm).symm
  | letter => exact hclaimed _
  | numbered hfinds => exact hclaimed _

/-- **The parts agree when a request was served.** -/
theorem Step.consistent (h : Step pool request reply next) (hpool : pool.Consistent) :
    next.Consistent := by
  cases h with
  | exclude _ l => exact hpool.exclude l
  | reserve _ l =>
    rcases hpool.reserve_cases l with ⟨heq, -⟩ | ⟨heq, -⟩
    · rw [heq]
      exact hpool.exclude l
    · rw [heq]
      exact hpool
  | @letter c rest used tried =>
    -- the least letter is taken away as it is when it is excluded
    have hc : c.isUpper = true := (hpool.mem_letters_iff.1 List.mem_cons_self).1
    have h := hpool.exclude (.ofChar c)
    rw [SplitPool.exclude, Label.letter?_ofChar hc] at h
    simpa using h
  | @numbered used tried i hfinds =>
    have h := hpool.exclude (.numbered i)
    rw [SplitPool.exclude, Label.letter?_numbered] at h
    refine h.advance fun j hj => ?_
    rcases Nat.eq_or_lt_of_le (Nat.le_of_lt_succ hj) with rfl | hj
    · exact List.mem_cons_self
    · rcases Nat.lt_or_ge j tried with hlt | hge
      · exact List.mem_cons_of_mem _ (hpool.tried j hlt)
      · exact List.mem_cons_of_mem _ (hfinds.least.2 j hge hj)

/-! ### What several requests do -/

theorem consistent_full : full.Consistent := ⟨by decide, fun i hi => absurd hi (Nat.not_lt_zero i)⟩

theorem consistent_excluding (labels : List Label) : (excluding labels).Consistent :=
  List.foldlRecOn labels exclude consistent_full fun _ h l _ => h.exclude l

theorem used_excluding (labels : List Label) :
    (excluding labels).used = (LabelPool.excluding labels).used :=
  List.foldl_rel (r := fun (p : SplitPool) (q : LabelPool) => p.used = q.used) rfl
    fun l _ _ _ h => congrArg (l :: ·) h

/-- **Several requests are served**, whatever they are. -/
theorem exists_serves (pool : SplitPool) (requests : List Request) :
    ∃ replies last, Serves pool requests replies last := by
  induction requests generalizing pool with
  | nil => exact ⟨_, _, .nil pool⟩
  | cons request requests ih =>
    obtain ⟨reply, next, hstep⟩ := exists_step pool request
    obtain ⟨replies, last, hrest⟩ := ih next
    exact ⟨_, _, .cons hstep hrest⟩

/-- **The replies are exact.** -/
theorem Serves.exact (h : Serves pool requests replies last) (hpool : pool.Consistent) :
    Exact {l | l ∈ pool.used} requests replies := by
  induction h with
  | nil pool => trivial
  | @cons pool next last request reply requests replies hstep _ ih =>
    refine ⟨hstep.due hpool, ?_⟩
    have hused : {l | request.claims? reply = some l ∨ l ∈ {l | l ∈ pool.used}} =
        {l | l ∈ next.used} := by
      ext l
      exact (hstep.mem_used hpool).symm
    rw [hused]
    exact ih (hstep.consistent hpool)

theorem Serves.exact_excluding {labels : List Label}
    (h : (excluding labels).Serves requests replies last) :
    Exact {l | l ∈ labels} requests replies := by
  have h := h.exact (consistent_excluding labels)
  simpa only [used_excluding, LabelPool.mem_used_excluding] using h

end SplitPool

/-! ### Both pools -/

namespace LabelPool

variable {labels : List Label} {requests : List Request}

theorem exact_replies_excluding :
    Exact {l | l ∈ labels} requests ((excluding labels).replies requests) := by
  have h : Exact {l | l ∈ (excluding labels).used} requests ((excluding labels).replies requests) :=
    exact_replies
  simpa only [mem_used_excluding] using h

/-- A pool that keeps its letters apart gives the same replies. -/
theorem exists_serves_replies : ∃ last,
    (SplitPool.excluding labels).Serves requests ((excluding labels).replies requests) last := by
  obtain ⟨replies, last, h⟩ := SplitPool.exists_serves (.excluding labels) requests
  have heq := h.exact_excluding.unique exact_replies_excluding
  exact ⟨last, heq ▸ h⟩

/-- **A pool hands out the least free label.**  It may begin with some labels excluded, and be
asked for anything.  Its replies are then exact: a label is reserved iff it is a single letter that
was not claimed before, and the label that is handed out is the first one of the sequence that was
not.  No other replies are exact, and no label is handed out twice.  A pool that keeps its letters
apart serves the requests as well, so each of its searches ends, and it gives the same replies. -/
theorem least_free (labels : List Label) (requests : List Request) :
    let replies := (excluding labels).replies requests
    (∀ replies', Exact {l | l ∈ labels} requests replies' ↔ replies' = replies) ∧
      (handedOut replies).Nodup ∧
      (∃ last, (SplitPool.excluding labels).Serves requests replies last) ∧
      ∀ replies' last, (SplitPool.excluding labels).Serves requests replies' last →
        replies' = replies := by
  intro replies
  have hexact : Exact {l | l ∈ labels} requests replies := exact_replies_excluding
  exact ⟨fun replies' => ⟨fun h => h.unique hexact, fun h => h ▸ hexact⟩, hexact.fresh.1,
    exists_serves_replies, fun replies' last h => h.exact_excluding.unique hexact⟩

-- all letters are excluded, and so are two of the numbered labels, one of them late
example : (excluding ("A1" :: Label.alphabet.map .ofChar)).replies
    [.take, .exclude "D1", .take, .reserve "Q", .take] =
      [.label "B1", .done, .label "C1", .granted false, .label "E1"] := by decide +kernel

end LabelPool

end FiniteState
