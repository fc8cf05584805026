import FiniteState.Label.Basic

/-!
# Sets of labels

A finite set of labels is kept as the strictly ascending list of its members, in the order of their
code points.  Two sets with the same members are then equal, which makes a set of states a good key
for a state of the powerset machine, and the members are always listed in the same order.

## Main definitions

* `LabelSet` — the sets, with `Membership` and the operations `insert`, `union`, `filter`, `map`.
* `LabelSet.ofList` — the set of the labels of a list.
* `LabelSet.unions` — the union over a list of labels.

The lemmas `mem_insert`, `mem_union`, `mem_filter`, `mem_map`, `mem_unions` and `ext` say what each
operation does to membership.
-/

namespace FiniteState

/-- A finite set of labels: its members in strictly ascending order. -/
structure LabelSet where
  toList : List Label
  /-- The members ascend strictly. -/
  ascending : toList.Pairwise (· < ·)
  deriving DecidableEq

namespace LabelSet

instance : Repr LabelSet := ⟨fun s => reprPrec s.toList⟩

/-- The set without members. -/
def empty : LabelSet := ⟨[], .nil⟩

instance : EmptyCollection LabelSet := ⟨empty⟩

instance : Inhabited LabelSet := ⟨empty⟩

/-- The label is a member. -/
def contains (s : LabelSet) (l : Label) : Bool := s.toList.contains l

instance : Membership Label LabelSet := ⟨fun s l => l ∈ s.toList⟩

instance (s : LabelSet) (l : Label) : Decidable (l ∈ s) :=
  inferInstanceAs (Decidable (l ∈ s.toList))

/-- The set has no members. -/
def isEmpty (s : LabelSet) : Bool := s.toList.isEmpty

/-- The number of members. -/
def size (s : LabelSet) : Nat := s.toList.length

/-- The least member. -/
def first? (s : LabelSet) : Option Label := s.toList.head?

/-! ### Adding a label to an ascending list -/

/-- An ascending list with one more label, at its place. -/
def insertAscending (l : Label) : List Label → List Label
  | [] => [l]
  | m :: rest =>
    if l < m then l :: m :: rest
    else if l = m then m :: rest
    else m :: insertAscending l rest

theorem mem_insertAscending {l m : Label} {ls : List Label} :
    m ∈ insertAscending l ls ↔ m = l ∨ m ∈ ls := by
  induction ls with
  | nil => simp [insertAscending]
  | cons k rest ih =>
    rw [insertAscending]
    split
    · simp
    · split
      · rename_i h
        subst h
        simp
      · rw [List.mem_cons, ih, List.mem_cons]
        constructor
        · rintro (h | h | h)
          · exact .inr (.inl h)
          · exact .inl h
          · exact .inr (.inr h)
        · rintro (h | h | h)
          · exact .inr (.inl h)
          · exact .inl h
          · exact .inr (.inr h)

theorem pairwise_insertAscending {l : Label} {ls : List Label} (h : ls.Pairwise (· < ·)) :
    (insertAscending l ls).Pairwise (· < ·) := by
  induction ls with
  | nil => simp [insertAscending]
  | cons m rest ih =>
    rw [List.pairwise_cons] at h
    rw [insertAscending]
    split
    · rename_i hlm
      refine List.pairwise_cons.2 ⟨fun k hk => ?_, List.pairwise_cons.2 h⟩
      rcases List.mem_cons.1 hk with rfl | hk
      · exact hlm
      · exact String.lt_trans hlm (h.1 k hk)
    · rename_i hlm
      split
      · exact List.pairwise_cons.2 h
      · rename_i hne
        refine List.pairwise_cons.2 ⟨fun k hk => ?_, ih h.2⟩
        rcases mem_insertAscending.1 hk with rfl | hk
        · -- neither smaller nor equal, so greater
          exact Decidable.byContradiction fun hml =>
            hne (Std.Trichotomous.trichotomous (r := ((· < ·) : Label → Label → Prop)) _ _ hlm hml)
        · exact h.1 k hk

/-! ### Operations -/

/-- The set with one more member. -/
def insert (s : LabelSet) (l : Label) : LabelSet :=
  ⟨insertAscending l s.toList, pairwise_insertAscending s.ascending⟩

/-- The set of one label. -/
def singleton (l : Label) : LabelSet := empty.insert l

/-- The set of the labels of a list. -/
def ofList (ls : List Label) : LabelSet := ls.foldl insert empty

/-- The labels that are members of either set. -/
def union (s t : LabelSet) : LabelSet := t.toList.foldl insert s

/-- The members that pass a test. -/
def filter (p : Label → Bool) (s : LabelSet) : LabelSet :=
  ⟨s.toList.filter p, s.ascending.filter p⟩

/-- The images of the members. -/
def map (f : Label → Label) (s : LabelSet) : LabelSet := ofList (s.toList.map f)

/-- The union of the sets that a function gives to the labels of a list. -/
def unions (f : Label → LabelSet) (ls : List Label) : LabelSet :=
  ls.foldl (fun acc l => acc.union (f l)) empty

/-- The two sets have a member in common. -/
def meets (s t : LabelSet) : Bool := s.toList.any t.contains

/-! ### Membership -/

theorem mem_def {s : LabelSet} {l : Label} : l ∈ s ↔ l ∈ s.toList := Iff.rfl

@[simp] theorem mem_toList {s : LabelSet} {l : Label} : l ∈ s.toList ↔ l ∈ s := Iff.rfl

theorem contains_iff {s : LabelSet} {l : Label} : s.contains l = true ↔ l ∈ s :=
  List.contains_iff_mem

@[simp] theorem notMem_empty (l : Label) : l ∉ (∅ : LabelSet) := List.not_mem_nil

@[simp] theorem mem_insert {s : LabelSet} {l m : Label} : m ∈ s.insert l ↔ m = l ∨ m ∈ s :=
  mem_insertAscending

@[simp] theorem mem_singleton {l m : Label} : m ∈ singleton l ↔ m = l := by
  rw [singleton, mem_insert]
  exact or_iff_left (notMem_empty m)

theorem mem_foldl_insert {ls : List Label} {s : LabelSet} {m : Label} :
    m ∈ ls.foldl insert s ↔ m ∈ ls ∨ m ∈ s := by
  induction ls generalizing s with
  | nil => simp
  | cons l ls ih =>
    rw [List.foldl_cons, ih, mem_insert, List.mem_cons]
    constructor
    · rintro (h | h | h)
      · exact .inl (.inr h)
      · exact .inl (.inl h)
      · exact .inr h
    · rintro ((h | h) | h)
      · exact .inr (.inl h)
      · exact .inl h
      · exact .inr (.inr h)

@[simp] theorem mem_ofList {ls : List Label} {m : Label} : m ∈ ofList ls ↔ m ∈ ls := by
  rw [ofList, mem_foldl_insert]
  exact or_iff_left (notMem_empty m)

@[simp] theorem mem_union {s t : LabelSet} {m : Label} : m ∈ s.union t ↔ m ∈ s ∨ m ∈ t := by
  rw [union, mem_foldl_insert]
  exact or_comm

@[simp] theorem mem_filter {p : Label → Bool} {s : LabelSet} {m : Label} :
    m ∈ s.filter p ↔ m ∈ s ∧ p m = true := List.mem_filter

@[simp] theorem mem_map {f : Label → Label} {s : LabelSet} {m : Label} :
    m ∈ s.map f ↔ ∃ l ∈ s, f l = m := by
  rw [map, mem_ofList, List.mem_map]
  rfl

@[simp] theorem mem_unions {f : Label → LabelSet} {ls : List Label} {m : Label} :
    m ∈ unions f ls ↔ ∃ l ∈ ls, m ∈ f l := by
  have key : ∀ (ls : List Label) (s : LabelSet),
      m ∈ ls.foldl (fun acc l => acc.union (f l)) s ↔ m ∈ s ∨ ∃ l ∈ ls, m ∈ f l := by
    intro ls
    induction ls with
    | nil => simp
    | cons l ls ih =>
      intro s
      rw [List.foldl_cons, ih, mem_union, or_assoc]
      simp only [List.mem_cons, exists_eq_or_imp]
  rw [unions, key]
  exact or_iff_right (notMem_empty m)

theorem meets_iff {s t : LabelSet} : s.meets t = true ↔ ∃ l, l ∈ s ∧ l ∈ t := by
  simp only [meets, List.any_eq_true, contains_iff, mem_toList]

theorem isEmpty_iff {s : LabelSet} : s.isEmpty = true ↔ s = ∅ := by
  rcases s with ⟨ls, h⟩
  simp only [isEmpty, List.isEmpty_iff]
  constructor
  · rintro rfl
    rfl
  · intro h
    exact congrArg toList h

theorem nodup_of_ascending {ls : List Label} (h : ls.Pairwise (· < ·)) : ls.Nodup :=
  List.nodup_iff_pairwise_ne.2 <| h.imp fun {_ b} hlt heq =>
    String.lt_irrefl b ((congrArg (· < b) heq).mp hlt)

theorem nodup_toList (s : LabelSet) : s.toList.Nodup := nodup_of_ascending s.ascending

/-- A set is determined by its members. -/
theorem ext {s t : LabelSet} (h : ∀ l, l ∈ s ↔ l ∈ t) : s = t := by
  rcases s with ⟨ls, hs⟩
  rcases t with ⟨lt, ht⟩
  have hperm : ls.Perm lt := by
    refine (List.perm_ext_iff_of_nodup (nodup_of_ascending hs) (nodup_of_ascending ht)).2 h
  have : ls = lt := hperm.eq_of_pairwise
    (fun a b _ _ hab hba => absurd (String.lt_trans hab hba) (String.lt_irrefl a)) hs ht
  subst this
  rfl

end LabelSet

end FiniteState
