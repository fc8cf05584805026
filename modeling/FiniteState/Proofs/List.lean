import Mathlib.Data.List.Nodup
import Mathlib.Data.List.Perm.Subperm

/-!
# Lists without repetitions and association lists

The tables of the library are association lists, and its traversals and supplies
of names are lists without repetitions.  This file collects what is needed of
both and is missing from the standard library, after two facts about results.

## Main results

* `List.nodup_eraseDups`, `List.eraseDups_of_nodup` — removing repetitions leaves none, and
  changes nothing where there are none.
* `List.eraseDups_filter`, `List.eraseDups_map` — it commutes with tests and with maps that
  keep the members apart.
* `List.Nodup.mem_of_length_le` — a list without repetitions that is as long as a
  list it is contained in has all its members.
* `List.exists_notMem_of_injective` — among one more value of an injective
  sequence than a list has members, one is missing from the list.
* `List.splitOn_flatMap_concat` — splitting pieces apart that each end in a separator.
* `List.exists_splitOn_eq_concat`, `List.exists_splitOn_eq_cons`, `List.splitOn_append_of_eq` —
  the last and the first piece, and splitting two lists side by side.
* `List.intercalate_append_pair`, `List.filter_intercalate`, `List.mem_of_mem_intercalate` —
  pieces with separators between them; `List.eq_of_intercalate_eq`, they can be read back.
* `List.mem_of_mem_splitOn`, `List.exists_of_mem_mapM_ok` — where the members of a
  piece, and of a list of results, come from.
* `List.lookup_map_values`, `List.lookup_filter_keys`, `List.lookup_map_keys`,
  `List.lookup_tabulated` — looking up in a list that was built from another one.
-/

namespace FiniteState

/-- What comes of two computations one after the other came of the first one. -/
theorem exists_of_bind_eq_ok {ε : Type*} {α β : Type _} {x : Except ε α} {f : α → Except ε β}
    {b : β} (h : x >>= f = .ok b) : ∃ a, x = .ok a ∧ f a = .ok b := by
  cases x with
  | error e => cases h
  | ok a => exact ⟨a, rfl, h⟩

/-- What comes of a computation whose result is changed came of the computation. -/
theorem exists_of_map_eq_ok {ε α β : Type*} {x : Except ε α} {f : α → β} {b : β}
    (h : x.map f = .ok b) : ∃ a, x = .ok a ∧ f a = b := by
  cases x with
  | error e => cases h
  | ok a => exact ⟨a, rfl, Except.ok.inj h⟩

/-- A value that is kept unless it has a property. -/
theorem some_unless_eq_some {α : Type*} {P : α → Prop} [DecidablePred P] {a b : α} :
    (if P a then none else some a) = some b ↔ a = b ∧ ¬ P b := by
  rw [Option.ite_none_left_eq_some, Option.some.injEq]
  constructor
  · rintro ⟨ha, rfl⟩
    exact ⟨rfl, ha⟩
  · rintro ⟨rfl, ha⟩
    exact ⟨ha, rfl⟩

end FiniteState

namespace List

variable {α β γ κ : Type*}

/-! ### Lists without repetitions -/

theorem nodup_eraseDups [BEq α] [LawfulBEq α] (l : List α) : l.eraseDups.Nodup := by
  -- `eraseDups` recurses on a filtered tail, so the induction is on the length
  induction hn : l.length using Nat.strongRecOn generalizing l with
  | ind n ih =>
    cases l with
    | nil => simp
    | cons a l =>
      rw [eraseDups_cons, nodup_cons]
      refine ⟨by simp [mem_eraseDups], ih _ ?_ _ rfl⟩
      rw [← hn, length_cons]
      exact Nat.lt_succ_of_le (length_filter_le _ _)

theorem eraseDups_of_nodup [BEq α] [LawfulBEq α] {l : List α} (h : l.Nodup) :
    l.eraseDups = l := by
  induction l with
  | nil => rfl
  | cons a l ih =>
    rw [nodup_cons] at h
    have hfilter : (l.filter fun b => !b == a) = l := by
      rw [filter_eq_self]
      intro b hb
      have hne : b ≠ a := fun heq => h.1 (heq ▸ hb)
      simp [hne]
    rw [eraseDups_cons, hfilter, ih h.2]

/-- Removing repetitions and restricting to the members that pass a test commute. -/
theorem eraseDups_filter [BEq α] [LawfulBEq α] (p : α → Bool) (l : List α) :
    (l.filter p).eraseDups = l.eraseDups.filter p := by
  induction hn : l.length using Nat.strongRecOn generalizing l with
  | ind n ih =>
    cases l with
    | nil => rfl
    | cons a l =>
      have hrest : ((l.filter fun b => !b == a).filter p).eraseDups =
          (l.filter fun b => !b == a).eraseDups.filter p := by
        refine ih _ ?_ _ rfl
        rw [← hn, length_cons]
        exact Nat.lt_succ_of_le (length_filter_le _ _)
      rw [eraseDups_cons, filter_cons, filter_cons, ← hrest]
      by_cases ha : p a = true
      · rw [if_pos ha, if_pos ha, eraseDups_cons, filter_filter, filter_filter]
        simp only [Bool.and_comm]
      · -- the test fails for all repetitions of the first member
        have hkept : (l.filter fun b => !b == a).filter p = l.filter p := by
          rw [filter_filter]
          refine filter_congr fun b _ => ?_
          by_cases hb : b = a
          · simp [hb, ha]
          · simp [hb]
        rw [if_neg ha, if_neg ha, hkept]

/-- Removing repetitions and mapping the members to different values commute. -/
theorem eraseDups_map [BEq α] [LawfulBEq α] [BEq β] [LawfulBEq β] {f : α → β} {l : List α}
    (hinj : ∀ a ∈ l, ∀ b ∈ l, f a = f b → a = b) :
    (l.map f).eraseDups = l.eraseDups.map f := by
  induction hn : l.length using Nat.strongRecOn generalizing l with
  | ind n ih =>
    cases l with
    | nil => rfl
    | cons a l =>
      have hfilter : (l.map f).filter (fun b => !b == f a) = (l.filter fun b => !b == a).map f := by
        rw [filter_map]
        refine congrArg (map f) (filter_congr fun b hb => ?_)
        by_cases heq : b = a
        · simp [heq]
        · have hne : f b ≠ f a := mt (hinj b (mem_cons_of_mem a hb) a mem_cons_self) heq
          simp [heq, hne]
      have hrest : ((l.filter fun b => !b == a).map f).eraseDups =
          (l.filter fun b => !b == a).eraseDups.map f := by
        refine ih _ ?_ (fun b hb c hc => ?_) rfl
        · rw [← hn, length_cons]
          exact Nat.lt_succ_of_le (length_filter_le _ _)
        · exact hinj b (mem_cons_of_mem a (mem_of_mem_filter hb)) c
            (mem_cons_of_mem a (mem_of_mem_filter hc))
      rw [map_cons, eraseDups_cons, eraseDups_cons, hfilter, hrest, map_cons]

/-- Members that fail a test and have no values need not be listed. -/
theorem flatMap_filter_of_eq_nil {p : α → Bool} {f : α → List β} {l : List α}
    (h : ∀ a ∈ l, ¬ p a = true → f a = []) : (l.filter p).flatMap f = l.flatMap f := by
  induction l with
  | nil => rfl
  | cons a l ih =>
    have hrest := ih fun b hb => h b (mem_cons_of_mem a hb)
    rw [filter_cons, flatMap_cons]
    split
    · rw [flatMap_cons, hrest]
    · rename_i ha
      rw [hrest, h a mem_cons_self ha, nil_append]

/-- Where no value is repeated, one member has the value. -/
theorem filter_value_of_mem [BEq β] [LawfulBEq β] {f : α → β} {l : List α} (hnd : (l.map f).Nodup)
    {a : α} (h : a ∈ l) : (l.filter fun b => f b == f a) = [a] := by
  induction l with
  | nil => exact absurd h not_mem_nil
  | cons first l ih =>
    rw [map_cons, nodup_cons] at hnd
    rcases mem_cons.1 h with rfl | h
    · have hnone : (l.filter fun b => f b == f a) = [] := by
        rw [filter_eq_nil_iff]
        intro b hb heq
        exact hnd.1 (mem_map.2 ⟨b, hb, eq_of_beq heq⟩)
      rw [filter_cons, if_pos (beq_self_eq_true (f a)), hnone]
    · have hne : f first ≠ f a := fun heq => hnd.1 (mem_map.2 ⟨a, h, heq.symm⟩)
      rw [filter_cons, if_neg (by simpa using hne), ih hnd.2 h]

/-- Of a list without repetitions, the members of a part of it and the others are not more
than the whole. -/
theorem Sublist.length_add_length_filter_le [BEq α] [LawfulBEq α] {part l : List α}
    (hpart : part.Sublist l) (hnd : l.Nodup) :
    part.length + (l.filter fun a => !part.contains a).length ≤ l.length := by
  have hsub : part ⊆ l.filter fun a => part.contains a := by
    intro a ha
    simp [hpart.subset ha, ha]
  have hle := (subperm_of_subset (hpart.nodup hnd) hsub).length_le
  have hsum := length_eq_length_filter_add (l := l) fun a => part.contains a
  omega

/-- A list without repetitions that is as long as a list it is contained in has
all members of that list. -/
theorem Nodup.mem_of_length_le {l u : List α} (hnd : l.Nodup) (hsub : l ⊆ u)
    (hlen : u.length ≤ l.length) {x : α} (hx : x ∈ u) : x ∈ l :=
  ((subperm_of_subset hnd hsub).perm_of_length_le hlen).mem_iff.2 hx

/-- **The pigeonhole principle for supplies of names.**  Among one more value of
an injective sequence than a list has members, one is missing from the list. -/
theorem exists_notMem_of_injective {f : ℕ → α} (hf : Function.Injective f) (l : List α) :
    ∃ i ≤ l.length, f i ∉ l := by
  by_contra! h
  have hnd : ((List.range (l.length + 1)).map f).Nodup := nodup_range.map hf
  have hsub : (List.range (l.length + 1)).map f ⊆ l := by
    intro x hx
    obtain ⟨i, hi, rfl⟩ := mem_map.1 hx
    exact h i (Nat.le_of_lt_succ (mem_range.1 hi))
  have := (subperm_of_subset hnd hsub).length_le
  rw [length_map, length_range] at this
  omega

/-! ### Pieces and results -/

/-- There is a last piece. -/
theorem exists_splitOn_eq_concat [BEq α] (a : α) (l : List α) :
    ∃ before last, l.splitOn a = before ++ [last] :=
  (l.splitOn a).eq_nil_or_concat'.resolve_left (splitOn_ne_nil a l)

/-- There is a first piece. -/
theorem exists_splitOn_eq_cons [BEq α] (a : α) (l : List α) :
    ∃ first after, l.splitOn a = first :: after :=
  exists_cons_of_ne_nil (splitOn_ne_nil a l)

/-- The pieces that a list is split into have only members of the list. -/
theorem mem_of_mem_splitOn [BEq α] {a x : α} {l piece : List α} (hpiece : piece ∈ l.splitOn a)
    (hx : x ∈ piece) : x ∈ l := by
  induction l generalizing piece with
  | nil =>
    rw [splitOn_nil, mem_singleton] at hpiece
    rwa [hpiece] at hx
  | cons y l ih =>
    rw [splitOn_cons_eq_if_modifyHead] at hpiece
    -- a separator begins a new piece, and any other member joins the first one
    split at hpiece
    · rcases mem_cons.1 hpiece with rfl | hpiece
      · exact absurd hx not_mem_nil
      · exact mem_cons_of_mem y (ih hpiece hx)
    · obtain ⟨first, rest, hsplit⟩ := exists_splitOn_eq_cons a l
      rw [hsplit] at ih hpiece
      rcases mem_cons.1 hpiece with rfl | hpiece
      · rcases mem_cons.1 hx with rfl | hx
        · exact mem_cons_self
        · exact mem_cons_of_mem y (ih mem_cons_self hx)
      · exact mem_cons_of_mem y (ih (mem_cons_of_mem first hpiece) hx)

/-- Pieces that each end in a separator are split apart, and nothing is left. -/
theorem splitOn_flatMap_concat [BEq α] [LawfulBEq α] {a : α} {pieces : List (List α)}
    (h : ∀ piece ∈ pieces, a ∉ piece) :
    (pieces.flatMap (· ++ [a])).splitOn a = pieces ++ [[]] := by
  induction pieces with
  | nil => exact splitOn_nil a
  | cons piece pieces ih =>
    have hpiece := h piece mem_cons_self
    have hrest := ih fun p hp => h p (mem_cons_of_mem piece hp)
    rw [flatMap_cons, append_assoc, singleton_append,
      splitOn_append_cons_self_of_not_mem hpiece, hrest, cons_append]

/-- Where two lists meet, the last piece of the one and the first of the other are one piece. -/
theorem splitOn_append_of_eq [BEq α] [LawfulBEq α] {a : α} {u v last next : List α}
    {before after : List (List α)} (hu : u.splitOn a = before ++ [last])
    (hv : v.splitOn a = next :: after) :
    (u ++ v).splitOn a = before ++ (last ++ next) :: after := by
  induction u generalizing before last with
  | nil =>
    obtain ⟨rfl, rfl⟩ : [] = before ∧ [] = last := append_singleton_inj.1 hu
    exact hv
  | cons x u ih =>
    obtain ⟨before', last', hu'⟩ := exists_splitOn_eq_concat a u
    rw [splitOn_cons_eq_if_modifyHead, hu'] at hu
    rw [cons_append, splitOn_cons_eq_if_modifyHead, ih hu']
    -- a separator begins a new piece, and any other member joins the first one
    split at hu
    · rename_i hx
      obtain ⟨rfl, rfl⟩ : [] :: before' = before ∧ last' = last := append_singleton_inj.1 hu
      rw [if_pos hx]
      rfl
    · rename_i hx
      rw [if_neg hx]
      cases before' with
      | nil =>
        obtain ⟨rfl, rfl⟩ : [] = before ∧ x :: last' = last := append_singleton_inj.1 hu
        rfl
      | cons first before' =>
        obtain ⟨rfl, rfl⟩ : (x :: first) :: before' = before ∧ last' = last :=
          append_singleton_inj.1 hu
        rfl

/-- Pieces with separators between them, and one more piece at the end. -/
theorem intercalate_append_pair (sep : List α) (before : List (List α)) (last next : List α) :
    sep.intercalate (before ++ [last, next]) =
      sep.intercalate (before ++ [last]) ++ (sep ++ next) := by
  induction before with
  | nil => simp
  | cons first before ih =>
    have hne : before ++ [last, next] ≠ [] := by simp
    have hne' : before ++ [last] ≠ [] := by simp
    rw [cons_append, cons_append, intercalate_cons_of_ne_nil hne, intercalate_cons_of_ne_nil hne',
      ih]
    simp only [append_assoc]

/-- The last of some pieces ends the pieces with separators between them. -/
theorem suffix_intercalate (sep : List α) (before : List (List α)) (last : List α) :
    last <:+ sep.intercalate (before ++ [last]) := by
  rcases before.eq_nil_or_concat' with rfl | ⟨before, previous, rfl⟩
  · simp
  · rw [append_assoc, singleton_append, intercalate_append_pair, ← append_assoc]
    exact suffix_append _ last

/-- A test is applied to the separators and to each piece. -/
theorem filter_intercalate (p : α → Bool) (sep : List α) (pieces : List (List α)) :
    (sep.intercalate pieces).filter p = (sep.filter p).intercalate (pieces.map (filter p)) := by
  induction pieces with
  | nil => rfl
  | cons first rest ih =>
    by_cases hrest : rest = []
    · rw [hrest, map_singleton, intercalate_singleton, intercalate_singleton]
    · have hrest' : rest.map (filter p) ≠ [] := fun h => hrest (map_eq_nil_iff.1 h)
      rw [intercalate_cons_of_ne_nil hrest, map_cons, intercalate_cons_of_ne_nil hrest',
        filter_append, filter_append, ih]

/-- What stands in pieces with separators between them stands in a piece or in a separator. -/
theorem mem_of_mem_intercalate {sep : List α} {pieces : List (List α)} {x : α}
    (h : x ∈ sep.intercalate pieces) : x ∈ sep ∨ ∃ piece ∈ pieces, x ∈ piece := by
  induction pieces with
  | nil => exact absurd h not_mem_nil
  | cons first rest ih =>
    by_cases hrest : rest = []
    · rw [hrest, intercalate_singleton] at h
      exact .inr ⟨first, mem_cons_self, h⟩
    · rw [intercalate_cons_of_ne_nil hrest, mem_append, mem_append] at h
      rcases h with (h | h) | h
      · exact .inr ⟨first, mem_cons_self, h⟩
      · exact .inl h
      · rcases ih h with h | ⟨piece, hpiece, h⟩
        · exact .inl h
        · exact .inr ⟨piece, mem_cons_of_mem first hpiece, h⟩

/-- Pieces that are not empty and do not have the separator can be read back. -/
theorem eq_of_intercalate_eq [BEq α] [LawfulBEq α] {a : α} {pieces pieces' : List (List α)}
    (hpieces : ∀ p ∈ pieces, p ≠ [] ∧ a ∉ p) (hpieces' : ∀ p ∈ pieces', p ≠ [] ∧ a ∉ p)
    (h : [a].intercalate pieces = [a].intercalate pieces') : pieces = pieces' := by
  -- nothing is left of no pieces, and something of any others
  have hread (l : List (List α)) (hl : ∀ p ∈ l, p ≠ [] ∧ a ∉ p) :
      l = if ([a].intercalate l).isEmpty then [] else ([a].intercalate l).splitOn a := by
    cases l with
    | nil => rfl
    | cons p l =>
      have hsplit := splitOn_intercalate a (fun q hq => (hl q hq).2) (cons_ne_nil p l)
      rw [hsplit, if_neg]
      intro hnil
      rw [isEmpty_iff.1 hnil, splitOn_nil] at hsplit
      exact (hl p mem_cons_self).1 (cons.inj hsplit).1.symm
  rw [hread pieces hpieces, h, ← hread pieces' hpieces']

/-- Where all members have a value, every value is that of a member. -/
theorem exists_of_mem_mapM_ok {ε : Type*} {f : α → Except ε β} {l : List α} {values : List β}
    (h : l.mapM f = .ok values) {y : β} (hy : y ∈ values) : ∃ x ∈ l, f x = .ok y := by
  induction l generalizing values with
  | nil =>
    cases h
    exact absurd hy not_mem_nil
  | cons x l ih =>
    rw [mapM_cons] at h
    obtain ⟨value, hx, h⟩ := FiniteState.exists_of_bind_eq_ok h
    obtain ⟨rest, hl, h⟩ := FiniteState.exists_of_bind_eq_ok h
    cases h
    rcases mem_cons.1 hy with rfl | hy
    · exact ⟨x, mem_cons_self, hx⟩
    · obtain ⟨x', hx', hy⟩ := ih hl hy
      exact ⟨x', mem_cons_of_mem x hx', hy⟩

/-! ### Association lists -/

variable [BEq κ] [LawfulBEq κ]

theorem mem_of_lookup_eq_some {l : List (κ × β)} {k : κ} {v : β} (h : l.lookup k = some v) :
    (k, v) ∈ l := by
  obtain ⟨l₁, l₂, rfl, -⟩ := lookup_eq_some_iff.1 h
  simp

/-- Where no key is repeated, every entry is found. -/
theorem lookup_eq_some_of_mem {l : List (κ × β)} (hnd : (l.map Prod.fst).Nodup) {k : κ} {v : β}
    (h : (k, v) ∈ l) : l.lookup k = some v := by
  induction l with
  | nil => simp at h
  | cons e l ih =>
    obtain ⟨k', v'⟩ := e
    rw [map_cons, nodup_cons] at hnd
    rw [lookup_cons]
    rcases mem_cons.1 h with heq | h
    · obtain ⟨rfl, rfl⟩ := Prod.mk.inj heq
      simp
    · have hne : k ≠ k' := fun heq => hnd.1 (mem_map.2 ⟨(k, v), h, heq⟩)
      rw [beq_eq_false_iff_ne.2 hne]
      exact ih hnd.2 h

theorem exists_lookup_eq_some {l : List (κ × β)} {k : κ} (h : k ∈ l.map Prod.fst) :
    ∃ v, l.lookup k = some v := by
  induction l with
  | nil => simp at h
  | cons e l ih =>
    rw [lookup_cons]
    by_cases hk : k = e.1
    · subst hk
      exact ⟨e.2, by simp⟩
    · rw [beq_eq_false_iff_ne.2 hk]
      rw [map_cons, mem_cons] at h
      exact ih (h.resolve_left hk)

/-- Where no value is repeated, a value is found under one key only. -/
theorem eq_of_lookup_eq_some {l : List (κ × β)} (hnd : (l.map Prod.snd).Nodup) {k k' : κ} {v : β}
    (hk : l.lookup k = some v) (hk' : l.lookup k' = some v) : k = k' :=
  congrArg Prod.fst (inj_on_of_nodup_map hnd (mem_of_lookup_eq_some hk)
    (mem_of_lookup_eq_some hk') rfl)

theorem lookup_map_values (f : κ → β → γ) (l : List (κ × β)) (k : κ) :
    (l.map fun e => (e.1, f e.1 e.2)).lookup k = (l.lookup k).map (f k) := by
  induction l with
  | nil => rfl
  | cons e l ih =>
    rw [map_cons, lookup_cons, lookup_cons, ih]
    by_cases h : k = e.1
    · subst h
      simp
    · rw [beq_eq_false_iff_ne.2 h]

theorem lookup_filter_keys (p : κ → Bool) (l : List (κ × β)) (k : κ) :
    (l.filter fun e => p e.1).lookup k = if p k then l.lookup k else none := by
  induction l with
  | nil => simp
  | cons e l ih =>
    -- an entry under another key changes nothing, whether it is kept or not
    rw [filter_cons]
    by_cases h : k = e.1
    · subst h
      by_cases hp : p e.1 = true
      · rw [if_pos hp, lookup_cons, lookup_cons]
        simp [hp]
      · rw [if_neg hp, ih, if_neg hp, if_neg hp]
    · rw [lookup_cons, beq_eq_false_iff_ne.2 h]
      by_cases hp : p e.1 = true
      · rw [if_pos hp, lookup_cons, beq_eq_false_iff_ne.2 h, ih]
      · rw [if_neg hp, ih]

/-- Looking up a renamed key, when the renaming keeps it apart from the others. -/
theorem lookup_map_keys {κ' : Type*} [BEq κ'] [LawfulBEq κ'] {f : κ → κ'} {l : List (κ × β)} {k : κ}
    (hinj : ∀ e ∈ l, f e.1 = f k → e.1 = k) :
    (l.map fun e => (f e.1, e.2)).lookup (f k) = l.lookup k := by
  induction l with
  | nil => rfl
  | cons e l ih =>
    rw [map_cons, lookup_cons, lookup_cons, ih fun e' he' => hinj e' (mem_cons_of_mem _ he')]
    by_cases h : k = e.1
    · subst h
      simp
    · have hne : f k ≠ f e.1 := fun hf => h (hinj e mem_cons_self hf.symm).symm
      rw [beq_eq_false_iff_ne.2 h, beq_eq_false_iff_ne.2 hne]

/-- Looking up in the table of a function. -/
theorem lookup_tabulated [DecidableEq κ] (g : κ → β) (ks : List κ) (k : κ) :
    (ks.map fun x => (x, g x)).lookup k = if k ∈ ks then some (g k) else none := by
  induction ks with
  | nil => rfl
  | cons x ks ih =>
    rw [map_cons, lookup_cons, ih]
    by_cases h : k = x
    · subst h
      simp
    · rw [beq_eq_false_iff_ne.2 h]
      simp [h]

end List
