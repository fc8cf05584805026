import Mathlib.Data.List.Induction
import Mathlib.Logic.Function.Iterate
import FiniteState.Label.Basic
import FiniteState.Proofs.Discovery

/-!
# Construction loops

A loop that builds the states of a machine while it goes through them.  A state that is
discovered gets a label, is entered in a table under its key, and is put in a queue; a turn of
the loop takes a state from the queue and discovers its successors.  The queue grows while it
is consumed.

Where the loop stands is determined by two lists of states, those taken from the queue and
those in it.  A turn moves one state from the second list to the first, and adds those of its
successors that are in neither.  Going through one frontier of an exploration leaves its fresh
successors in the queue, and so the loop ends with the states that `explore` finds, in the order
of their discovery, after one turn for each of them.

## Main definitions

* `Construction`, `Construction.discover`, `Construction.turn` — the loop.
* `Construction.named` — the labels given out to a list of states.
* `Construction.snapshot` — where the loop stands.
* `Construction.GoesThrough` — a loop that takes certain states from the queue, and ends.

## Main results

* `Construction.turn_snapshot` — **what one turn does**.
* `Construction.iterate_turn_start` — **the loop ends with the states that `explore` finds**.
* `Construction.goesThrough` — it takes them from the queue one by one, and no state is put
  there twice.
-/

namespace FiniteState

/-! ### Members that were not seen before -/

section Unseen

variable {α : Type} [DecidableEq α]

/-- The members of a list that were not found before, each once. -/
def unseen (found l : List α) : List α := (l.filter fun x => !found.contains x).eraseDups

theorem freshSuccessors_eq_unseen (next : α → List α) (found frontier : List α) :
    freshSuccessors next found frontier = unseen found (frontier.flatMap next) := rfl

theorem unseen_nil (l : List α) : unseen [] l = l.eraseDups := by
  simp [unseen]

theorem nodup_append_unseen {found : List α} (hfound : found.Nodup) (l : List α) :
    (found ++ unseen found l).Nodup := by
  refine List.nodup_append.2 ⟨hfound, List.nodup_eraseDups _, ?_⟩
  rintro x hx y hy rfl
  have hnew := (List.mem_filter.1 (List.mem_eraseDups.1 hy)).2
  simp [hx] at hnew

theorem unseen_append (found l l' : List α) :
    unseen found (l ++ l') = unseen found l ++ unseen (found ++ unseen found l) l' := by
  have hremove : (l'.filter fun x => !found.contains x).removeAll
      (l.filter fun x => !found.contains x) =
        l'.filter fun x => !(found ++ unseen found l).contains x := by
    rw [List.removeAll, List.filter_filter]
    refine List.filter_congr fun x _ => ?_
    simp [unseen, List.mem_eraseDups, Bool.and_comm]
  rw [unseen, List.filter_append, List.eraseDups_append, hremove]
  rfl

theorem unseen_singleton (found : List α) (x : α) :
    unseen found [x] = if x ∈ found then [] else [x] := by
  by_cases hx : x ∈ found <;> simp [unseen, hx, List.eraseDups_cons]

end Unseen

/-! ### The loop -/

/-- A loop that gives labels to states and goes through them. -/
structure Construction (κ ι : Type) where
  /-- The labels of the states discovered, under their keys, in the order of discovery. -/
  labels : List (ι × Label)
  /-- The states that were taken from the queue, in this order, with their labels. -/
  processed : List (κ × Label)
  /-- The states that wait for their turn, with their labels. -/
  queue : List (κ × Label)

namespace Construction

variable {κ ι : Type}

section Loop

variable [DecidableEq ι]

/-- A state is discovered.  Unless its key has a label, it gets one, which may depend on the
labels given out before, and is put in the queue. -/
def discover (key : κ → ι) (name : List Label → κ → Label) (c : Construction κ ι) (k : κ) :
    Construction κ ι :=
  if (c.labels.lookup (key k)).isSome then c
  else
    let l := name (c.labels.map (·.2)) k
    { c with labels := c.labels ++ [(key k, l)], queue := c.queue ++ [(k, l)] }

/-- One turn of the loop: a state is taken from the queue and its successors are discovered. -/
def turn (key : κ → ι) (name : List Label → κ → Label) (next : κ → List κ) :
    Construction κ ι → Construction κ ι
  | ⟨labels, processed, []⟩ => ⟨labels, processed, []⟩
  | ⟨labels, processed, e :: rest⟩ =>
    (next e.1).foldl (discover key name) ⟨labels, processed ++ [e], rest⟩

/-- The loop begins with the states that it starts from. -/
def start (key : κ → ι) (name : List Label → κ → Label) (initial : List κ) : Construction κ ι :=
  initial.foldl (discover key name) ⟨[], [], []⟩

end Loop

/-- **What holds at every moment of the loop.** -/
structure Orderly (key : κ → ι) (c : Construction κ ι) : Prop where
  /-- The table has the states taken from the queue and those in it, and no others. -/
  entered : c.labels = (c.processed ++ c.queue).map fun (k, l) => (key k, l)
  /-- No state was put in the queue twice. -/
  once : ((c.processed ++ c.queue).map Prod.fst).Nodup
  /-- No two states got the same label. -/
  apart : (c.labels.map Prod.snd).Nodup

/-- **The loop goes through the entries**, one at each turn, and ends. -/
structure GoesThrough (key : κ → ι) (course : ℕ → Construction κ ι) (entries : List (κ × Label)) :
    Prop where
  /-- The loop is orderly at every moment. -/
  orderly : ∀ turns, (course turns).Orderly key
  /-- Each turn takes the next entry. -/
  taken : ∀ turns, (course turns).processed = entries.take turns
  /-- The queue is empty when all entries were taken, and not before. -/
  ended : ∀ turns, (course turns).queue = [] ↔ entries.length ≤ turns

/-! ### Where the loop stands -/

/-- The labels given out to a list of states, one after the other. -/
def named (name : List Label → κ → Label) (keys : List κ) : List (κ × Label) :=
  keys.foldl (fun entries k => entries ++ [(k, name (entries.map (·.2)) k)]) []

/-- **Where the loop stands** when some states were taken from the queue and others wait. -/
def snapshot (key : κ → ι) (name : List Label → κ → Label) (processed waiting : List κ) :
    Construction κ ι :=
  let entries := named name (processed ++ waiting)
  ⟨entries.map fun (k, l) => (key k, l), entries.take processed.length,
    entries.drop processed.length⟩

variable {key : κ → ι} {name : List Label → κ → Label} {next : κ → List κ}
  {processed waiting keys : List κ} {k : κ}

theorem named_concat (name : List Label → κ → Label) (keys : List κ) (k : κ) :
    named name (keys ++ [k]) =
      named name keys ++ [(k, name ((named name keys).map (·.2)) k)] := by
  rw [named, List.foldl_append]
  rfl

theorem map_fst_named (name : List Label → κ → Label) (keys : List κ) :
    (named name keys).map Prod.fst = keys := by
  induction keys using List.reverseRecOn with
  | nil => rfl
  | append_singleton keys k ih => rw [named_concat, List.map_append, ih]; rfl

theorem length_named (name : List Label → κ → Label) (keys : List κ) :
    (named name keys).length = keys.length := by
  rw [← List.length_map, map_fst_named]

theorem labels_snapshot : (snapshot key name processed waiting).labels.map (·.2) =
    (named name (processed ++ waiting)).map (·.2) := by
  rw [snapshot, List.map_map]
  rfl

/-- A beginning of the states gets a beginning of the labels. -/
theorem take_named (name : List Label → κ → Label) (keys : List κ) (n : ℕ) :
    (named name keys).take n = named name (keys.take n) := by
  induction keys using List.reverseRecOn with
  | nil => simp [named]
  | append_singleton keys k ih =>
    rcases Nat.lt_or_ge keys.length n with hn | hn
    · rw [List.take_of_length_le, List.take_of_length_le]
      · rwa [List.length_append]
      · rwa [length_named, List.length_append]
    · rw [named_concat, List.take_append_of_le_length (by rwa [length_named]),
        List.take_append_of_le_length hn, ih]

theorem processed_snapshot :
    (snapshot key name processed waiting).processed = named name processed := by
  rw [snapshot, take_named, List.take_left]

theorem queue_snapshot_eq_nil_iff :
    (snapshot key name processed waiting).queue = [] ↔ waiting = [] := by
  rw [← List.length_eq_zero_iff, snapshot, List.length_drop, length_named, List.length_append,
    Nat.add_sub_cancel_left, List.length_eq_zero_iff]

/-- Where the loop stands tells which states were discovered. -/
theorem append_of_snapshot_eq (hkey : Function.Injective key)
    {processed' waiting' : List κ}
    (heq : snapshot key name processed waiting = snapshot key name processed' waiting') :
    processed ++ waiting = processed' ++ waiting' := by
  have hkeys (p q : List κ) : (snapshot key name p q).labels.map Prod.fst = (p ++ q).map key := by
    conv_rhs => rw [← map_fst_named name (p ++ q), List.map_map]
    rw [snapshot, List.map_map]
    rfl
  refine List.map_injective_iff.2 hkey ?_
  rw [← hkeys, heq, hkeys]

theorem orderly_snapshot (hnodup : (processed ++ waiting).Nodup)
    (hname : ((named name (processed ++ waiting)).map Prod.snd).Nodup) :
    (snapshot key name processed waiting).Orderly key where
  entered := by
    simp only [snapshot, List.take_append_drop]
  once := by
    simp only [snapshot, List.take_append_drop, map_fst_named]
    exact hnodup
  apart := by
    rwa [labels_snapshot]

/-! ### One turn -/

variable [DecidableEq ι]

/-- An empty queue ends the loop. -/
theorem turn_snapshot_nil :
    turn key name next (snapshot key name processed []) = snapshot key name processed [] := by
  have hqueue : (named name (processed ++ [])).drop processed.length = [] := by
    rw [List.append_nil]
    exact List.drop_eq_nil_of_le (Nat.le_of_eq (length_named name processed))
  rw [snapshot, hqueue, turn]

theorem iterate_turn_nil (turns : ℕ) :
    (turn key name next)^[turns] (snapshot key name processed []) =
      snapshot key name processed [] :=
  Function.iterate_fixed turn_snapshot_nil turns

variable [DecidableEq κ] (hkey : Function.Injective key)

include hkey

omit [DecidableEq κ] in
theorem isSome_lookup_snapshot :
    ((snapshot key name processed waiting).labels.lookup (key k)).isSome = true ↔
      k ∈ processed ++ waiting := by
  rw [← map_fst_named name (processed ++ waiting), List.lookup_isSome_iff]
  simp [snapshot, hkey.eq_iff]

/-- A state that is discovered waits at the end of the queue, unless it was discovered before. -/
theorem discover_snapshot :
    discover key name (snapshot key name processed waiting) k =
      snapshot key name processed (waiting ++ unseen (processed ++ waiting) [k]) := by
  rw [discover, unseen_singleton]
  by_cases hk : k ∈ processed ++ waiting
  · rw [if_pos ((isSome_lookup_snapshot hkey).2 hk), if_pos hk, List.append_nil]
  · rw [if_neg (mt (isSome_lookup_snapshot hkey).1 hk), if_neg hk]
    have hlen : processed.length ≤ (named name (processed ++ waiting)).length := by
      rw [length_named, List.length_append]
      exact Nat.le_add_right _ _
    rw [labels_snapshot, snapshot, snapshot, ← List.append_assoc, named_concat, List.map_append,
      List.take_append_of_le_length hlen, List.drop_append_of_le_length hlen]
    rfl

theorem foldl_discover_snapshot (l : List κ) :
    l.foldl (discover key name) (snapshot key name processed waiting) =
      snapshot key name processed (waiting ++ unseen (processed ++ waiting) l) := by
  induction l generalizing waiting with
  | nil => rw [List.foldl_nil, show unseen (processed ++ waiting) [] = [] from rfl, List.append_nil]
  | cons k l ih =>
    rw [List.foldl_cons, discover_snapshot hkey, ih, List.append_assoc,
      ← List.append_assoc processed, ← unseen_append]
    rfl

/-- **What one turn does**: the state taken from the queue is done with, and its fresh
successors wait at the end. -/
theorem turn_snapshot (rest : List κ) :
    turn key name next (snapshot key name processed (k :: rest)) =
      snapshot key name (processed ++ [k])
        (rest ++ unseen (processed ++ k :: rest) (next k)) := by
  have hstates : processed ++ k :: rest = processed ++ [k] ++ rest := by
    rw [List.append_assoc, List.singleton_append]
  -- the entry of the state is the first one in the queue
  have hlt : processed.length < (named name (processed ++ k :: rest)).length := by
    rw [length_named, List.length_append, List.length_cons]
    omega
  have hfst : ((named name (processed ++ k :: rest))[processed.length]).1 = k := by
    have hget : ((named name (processed ++ k :: rest)).map Prod.fst)[processed.length]? =
        some k := by
      rw [map_fst_named, List.getElem?_append_right (Nat.le_refl _), Nat.sub_self,
        List.getElem?_cons_zero]
    rwa [List.getElem?_map, List.getElem?_eq_getElem hlt, Option.map_some,
      Option.some.injEq] at hget
  have htaken : turn key name next (snapshot key name processed (k :: rest)) =
      (next k).foldl (discover key name) (snapshot key name (processed ++ [k]) rest) := by
    rw [snapshot, List.drop_eq_getElem_cons hlt, turn, hfst, snapshot, ← hstates,
      List.take_append_getElem hlt, List.length_append]
    rfl
  rw [htaken, foldl_discover_snapshot hkey, hstates]

/-! ### The whole loop -/

/-- Going through a frontier leaves its fresh successors in the queue. -/
theorem iterate_turn_snapshot (frontier : List κ) :
    (turn key name next)^[frontier.length]
        (snapshot key name processed (frontier ++ waiting)) =
      snapshot key name (processed ++ frontier)
        (waiting ++ freshSuccessors next (processed ++ frontier ++ waiting) frontier) := by
  induction frontier generalizing processed waiting with
  | nil => simp [freshSuccessors]
  | cons k frontier ih =>
    rw [List.length_cons, Function.iterate_succ_apply, List.cons_append, turn_snapshot hkey,
      List.append_assoc, ih]
    simp only [freshSuccessors_eq_unseen, List.flatMap_cons, unseen_append, List.append_assoc,
      List.cons_append, List.nil_append]

/-- When nothing else waits, the fresh successors of the frontier are the next one. -/
theorem iterate_turn_frontier {found frontier : List κ} (hfound : processed ++ frontier = found) :
    (turn key name next)^[frontier.length] (snapshot key name processed frontier) =
      snapshot key name found (freshSuccessors next found frontier) := by
  have h : (turn key name next)^[frontier.length] (snapshot key name processed (frontier ++ [])) =
      snapshot key name (processed ++ frontier)
        ([] ++ freshSuccessors next (processed ++ frontier ++ []) frontier) :=
    iterate_turn_snapshot hkey frontier
  rwa [List.append_nil, List.append_nil, List.nil_append, hfound] at h

/-- Going through all frontiers leaves nothing in the queue, after one turn for each state. -/
theorem exists_iterate_turn (name : List Label → κ → Label) (rounds : ℕ) {found frontier : List κ}
    (hfound : processed ++ frontier = found)
    (hclosed : ∀ x ∈ exploreFrom next rounds found frontier,
      next x ⊆ exploreFrom next rounds found frontier) :
    ∃ turns, processed.length + turns = (exploreFrom next rounds found frontier).length ∧
      (turn key name next)^[turns] (snapshot key name processed frontier) =
        snapshot key name (exploreFrom next rounds found frontier) [] := by
  induction rounds generalizing processed found frontier with
  | zero =>
    -- the rounds have run out, but nothing fresh was left
    have hfresh : freshSuccessors next found frontier = [] := by
      refine List.eq_nil_iff_forall_not_mem.2 fun y hy => ?_
      obtain ⟨⟨x, hx, hxy⟩, hnew⟩ := mem_freshSuccessors.1 hy
      exact hnew (hclosed x (hfound ▸ List.mem_append_right _ hx) hxy)
    refine ⟨frontier.length, ?_, ?_⟩
    · rw [exploreFrom, ← hfound, List.length_append]
    · rw [iterate_turn_frontier hkey hfound, hfresh, exploreFrom]
  | succ rounds ih =>
    have hlen : processed.length + frontier.length = found.length := by
      rw [← hfound, List.length_append]
    rw [exploreFrom] at hclosed ⊢
    by_cases hfresh : (freshSuccessors next found frontier).isEmpty = true
    · rw [if_pos hfresh]
      refine ⟨frontier.length, hlen, ?_⟩
      rw [iterate_turn_frontier hkey hfound, List.isEmpty_iff.1 hfresh]
    · rw [if_neg hfresh] at hclosed ⊢
      obtain ⟨turns, hturns, hrest⟩ := ih rfl hclosed
      refine ⟨turns + frontier.length, by omega, ?_⟩
      rw [Function.iterate_add_apply, iterate_turn_frontier hkey hfound, hrest]

/-- The loop begins with the states that it starts from in the queue. -/
theorem start_eq_snapshot (initial : List κ) :
    start key name initial = snapshot key name [] initial.eraseDups := by
  have h : initial.foldl (discover key name) (snapshot key name [] []) =
      snapshot key name [] ([] ++ unseen ([] ++ []) initial) := foldl_discover_snapshot hkey initial
  rwa [List.append_nil, List.nil_append, unseen_nil] at h

/-- **The loop ends with the states that `explore` finds**, in the order of their discovery,
after one turn for each of them. -/
theorem iterate_turn_start (name : List Label → κ → Label) {rounds : ℕ} {initial : List κ}
    (hclosed : ∀ x ∈ explore next rounds initial, next x ⊆ explore next rounds initial) :
    (turn key name next)^[(explore next rounds initial).length] (start key name initial) =
      snapshot key name (explore next rounds initial) [] := by
  obtain ⟨turns, hlen, hturns⟩ :=
    exists_iterate_turn hkey name rounds (List.nil_append initial.eraseDups) hclosed
  rw [List.length_nil, Nat.zero_add] at hlen
  rwa [start_eq_snapshot hkey, explore, ← hlen]

/-! ### Every moment of the loop -/

/-- **From where the loop stands it goes on**: what was discovered stays discovered, nothing is
discovered twice, and every turn takes one state from the queue until it is empty. -/
theorem exists_iterate_snapshot (name : List Label → κ → Label) (next : κ → List κ) (turns : ℕ)
    (hnodup : (processed ++ waiting).Nodup) :
    ∃ processed' waiting', (turn key name next)^[turns] (snapshot key name processed waiting) =
        snapshot key name processed' waiting' ∧
      processed ++ waiting <+: processed' ++ waiting' ∧ (processed' ++ waiting').Nodup ∧
      processed'.length ≤ processed.length + turns ∧
      (processed'.length = processed.length + turns ∨ waiting' = []) := by
  induction turns with
  | zero => exact ⟨_, _, rfl, List.prefix_rfl, hnodup, Nat.le_refl _, .inl rfl⟩
  | succ turns ih =>
    obtain ⟨processed', waiting', heq, hprefix, hnodup', hle, hlen⟩ := ih
    rw [Function.iterate_succ_apply', heq]
    cases waiting' with
    | nil => exact ⟨processed', [], turn_snapshot_nil, hprefix, hnodup', by omega, .inr rfl⟩
    | cons k rest =>
      have hgrown : processed' ++ [k] ++ (rest ++ unseen (processed' ++ k :: rest) (next k)) =
          processed' ++ k :: rest ++ unseen (processed' ++ k :: rest) (next k) := by
        simp only [List.append_assoc, List.cons_append, List.nil_append]
      refine ⟨_, _, turn_snapshot hkey rest, ?_, ?_, ?_, .inl ?_⟩
      · rw [hgrown]
        exact hprefix.trans (List.prefix_append _ _)
      · rw [hgrown]
        exact nodup_append_unseen hnodup' _
      all_goals
        have := hlen.resolve_right (List.cons_ne_nil k rest)
        rw [List.length_append, List.length_singleton]
        omega

/-- Where the loop stands after some turns, if it ends with certain states. -/
theorem exists_snapshot_of_end {states : List κ} (hnodup : waiting.Nodup)
    (hend : (turn key name next)^[states.length] (snapshot key name [] waiting) =
      snapshot key name states []) (turns : ℕ) :
    ∃ rest, (turn key name next)^[turns] (snapshot key name [] waiting) =
        snapshot key name (states.take turns) rest ∧
      (states.take turns ++ rest).Nodup ∧ (rest = [] ↔ states.length ≤ turns) := by
  obtain ⟨taken, rest, heq, -, hnodup', hle, hlen⟩ :=
    exists_iterate_snapshot hkey name next turns (show ([] ++ waiting).Nodup from hnodup)
  rw [List.length_nil, Nat.zero_add] at hle hlen
  rcases Nat.le_total states.length turns with hturns | hturns
  · -- nothing happens after the end
    have hafter : (turn key name next)^[turns] (snapshot key name [] waiting) =
        snapshot key name states [] := by
      rw [← Nat.sub_add_cancel hturns, Function.iterate_add_apply, hend, iterate_turn_nil]
    have hstates := append_of_snapshot_eq hkey (heq.symm.trans hafter)
    rw [List.take_of_length_le hturns]
    exact ⟨[], hafter, hstates ▸ hnodup', iff_of_true rfl hturns⟩
  · -- the turns that are left lead to the end, and nothing discovered is lost on the way
    have hleft : (turn key name next)^[states.length - turns] (snapshot key name taken rest) =
        snapshot key name states [] := by
      rw [← heq, ← Function.iterate_add_apply, Nat.sub_add_cancel hturns, hend]
    obtain ⟨taken', rest', heq', hprefix, -⟩ :=
      exists_iterate_snapshot hkey name next (states.length - turns) hnodup'
    rw [append_of_snapshot_eq hkey (heq'.symm.trans hleft), List.append_nil] at hprefix
    have hlength := hprefix.length_le
    rw [List.length_append] at hlength
    have hall (hrest : rest = []) : taken = states := by
      rw [hrest, iterate_turn_nil] at hleft
      have hstates := append_of_snapshot_eq hkey hleft
      rwa [List.append_nil, List.append_nil] at hstates
    have htaken : taken.length = turns := by
      refine hlen.elim id fun hrest => Nat.le_antisymm hle ?_
      rwa [hall hrest]
    have htake : taken = states.take turns := by
      rw [← htaken]
      exact List.prefix_iff_eq_take.1 ((List.prefix_append taken rest).trans hprefix)
    rw [← htake]
    refine ⟨rest, heq, hnodup', fun hrest => ?_, fun hlast => ?_⟩
    · exact Nat.le_of_eq (by rw [← hall hrest, htaken])
    · exact List.length_eq_zero_iff.1 (by omega)

/-- **The loop goes through the states that `explore` finds**, with their labels. -/
theorem goesThrough {rounds : ℕ} {initial : List κ}
    (hname : ∀ keys : List κ, keys.Nodup → ((named name keys).map Prod.snd).Nodup)
    (hclosed : ∀ x ∈ explore next rounds initial, next x ⊆ explore next rounds initial) :
    GoesThrough key (fun turns => (turn key name next)^[turns] (start key name initial))
      (named name (explore next rounds initial)) := by
  have hend := iterate_turn_start hkey name hclosed
  rw [start_eq_snapshot hkey] at hend ⊢
  have hmoment := exists_snapshot_of_end hkey (List.nodup_eraseDups initial) hend
  exact {
    orderly := fun turns => by
      obtain ⟨rest, heq, hnodup, -⟩ := hmoment turns
      rw [heq]
      exact orderly_snapshot hnodup (hname _ hnodup)
    taken := fun turns => by
      obtain ⟨rest, heq, -⟩ := hmoment turns
      rw [heq, processed_snapshot, take_named]
    ended := fun turns => by
      obtain ⟨rest, heq, -, hrest⟩ := hmoment turns
      rw [heq, length_named, queue_snapshot_eq_nil_iff, hrest] }

end Construction

end FiniteState
