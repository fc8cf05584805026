import FiniteState.Proofs.Automaton.Product

/-!
# The language of a union

In joined automata each operand stands before the new accepting state: its states move
as they did, and from an accepting one a transition without reading leads on to the
new state, which is not left.  So a path from an old state to the new accepting state
is a path of the operand to one of its accepting states, with that transition after
it.  What the operand on the other side looks like does not matter, as long as the
states are kept apart.

## Main definitions

* `Automaton.PutBefore` — an automaton stands before an accepting state of another one.

## Main results

* `PutBefore.path_accept_iff` — the words read on the way to the new accepting state
  are those that the automaton accepts.
* `Apart.accepts_joined` — **joined automata accept the words of either**.
* `WellFormed.exists_union_accepts` — **the union of two automata accepts the words of
  either**, whatever labels they share.
-/

namespace FiniteState.Automaton

variable {fa fb fc : Automaton} {start accept : Label} {p q r : Label} {s : Symbol}
  {w : List Symbol}

/-! ### Before an accepting state -/

/-- An automaton stands before an accepting state of another one: its states move as
they did, and the accepting ones also move to the new state without reading. -/
structure PutBefore (fa fc : Automaton) (accept : Label) : Prop where
  /-- The table is well formed. -/
  wellFormed : fa.WellFormed
  /-- The new accepting state is none of the old states. -/
  accept_notMem : accept ∉ fa.states
  /-- The old states keep their transitions, and the accepting ones get one more. -/
  mem_targets : ∀ {q r s}, q ∈ fa.states →
    (r ∈ fc.targets q s ↔ r ∈ fa.targets q s ∨ s = Symbol.epsilon ∧ q ∈ fa.finals ∧ r = accept)
  /-- The new accepting state is not left. -/
  notMem_targets_accept : ∀ {r s}, r ∉ fc.targets accept s

namespace PutBefore

variable (h : fa.PutBefore fc accept)

include h

/-- A path that has come to the new accepting state is over. -/
theorem eq_nil_of_path_accept (hpath : fc.Path accept w r) : w = [] := by
  cases hpath with
  | nil => rfl
  | silent hstep _ => exact absurd hstep h.notMem_targets_accept
  | read _ hstep _ => exact absurd hstep h.notMem_targets_accept

/-- The paths of the automaton are left as they are. -/
theorem path (hpath : fa.Path q w r) : fc.Path q w r := by
  refine hpath.mono fun {q s r} hr => ?_
  have hq : q ∈ fa.states := mem_states_of_mem_targets _ hr
  exact (h.mem_targets hq).2 (.inl hr)

/-- **The words read on the way to the new accepting state** are those that the
automaton accepts. -/
theorem path_accept_iff (hq : q ∈ fa.states) : fc.Path q w accept ↔ fa.AcceptsFrom q w := by
  constructor
  · intro hpath
    -- along the path every state is an old one, until the last transition is taken
    generalize hr : accept = r at hpath
    induction hpath with
    | nil p => exact absurd (hr ▸ hq) h.accept_notMem
    | @silent p q' r w hstep htail ih =>
      rcases (h.mem_targets hq).1 hstep with hold | ⟨-, hfinal, hnew⟩
      · obtain ⟨f, hf, hrest⟩ := ih (h.wellFormed.target_mem hold) hr
        exact ⟨f, hf, .silent hold hrest⟩
      · rw [hnew] at htail
        have hw : w = [] := h.eq_nil_of_path_accept htail
        rw [hw]
        exact acceptsFrom_nil_of_mem hfinal
    | @read p q' r s w hs hstep htail ih =>
      have hold : q' ∈ fa.targets p s := by
        refine ((h.mem_targets hq).1 hstep).resolve_right ?_
        intro hnew
        exact hs hnew.1
      obtain ⟨f, hf, hrest⟩ := ih (h.wellFormed.target_mem hold) hr
      exact ⟨f, hf, .read hs hold hrest⟩
  · rintro ⟨f, hf, hpath⟩
    have hlast : accept ∈ fc.targets f Symbol.epsilon :=
      (h.mem_targets (h.wellFormed.final_mem hf)).2 (.inr ⟨rfl, hf, rfl⟩)
    have hall := (h.path hpath).append (.silent hlast (.nil accept))
    rwa [List.append_nil] at hall

end PutBefore

/-! ### Joined automata -/

namespace Apart

variable (h : Apart fa fb start accept)

include h

theorem putBefore_left (hfa : fa.WellFormed) :
    fa.PutBefore (joined fa fb start accept) accept where
  wellFormed := hfa
  accept_notMem := h.accept_left
  mem_targets hq := mem_targets_joined_left hfa hq
  notMem_targets_accept := h.notMem_targets_joined_accept

theorem putBefore_right (hfb : fb.WellFormed) :
    fb.PutBefore (joined fa fb start accept) accept where
  wellFormed := hfb
  accept_notMem := h.accept_right
  mem_targets hq := h.mem_targets_joined_right hfb hq
  notMem_targets_accept := h.notMem_targets_joined_accept

/-- From the new initial state a path first goes to one of the old ones. -/
theorem path_start_accept_iff : (joined fa fb start accept).Path start w accept ↔
    ∃ p, (fa.initial = some p ∨ fb.initial = some p) ∧
      (joined fa fb start accept).Path p w accept := by
  constructor
  · intro hpath
    cases hpath with
    | nil => exact absurd rfl h.start_ne_accept
    | silent hstep htail => exact ⟨_, (h.mem_targets_joined_start.1 hstep).2, htail⟩
    | read hs hstep _ => exact absurd (h.mem_targets_joined_start.1 hstep).1 hs
  · rintro ⟨p, hp, hpath⟩
    exact .silent (h.mem_targets_joined_start.2 ⟨rfl, hp⟩) hpath

/-- **Joined automata accept the words of either.** -/
theorem accepts_joined (hfa : fa.WellFormed) (hfb : fb.WellFormed) :
    (joined fa fb start accept).accepts w = true ↔
      fa.accepts w = true ∨ fb.accepts w = true := by
  have hleft := h.putBefore_left hfa
  have hright := h.putBefore_right hfb
  -- the new states are the only initial and the only accepting one
  have hjoined : (joined fa fb start accept).accepts w = true ↔
      (joined fa fb start accept).Path start w accept := by
    rw [(hfa.joined hfb h).accepts_iff]
    simp [joined, AcceptsFrom]
  rw [hjoined, h.path_start_accept_iff, hfa.accepts_iff, hfb.accepts_iff]
  constructor
  · rintro ⟨p, hp | hp, hpath⟩
    · exact .inl ⟨p, hp, (hleft.path_accept_iff (hfa.initial_mem hp)).1 hpath⟩
    · exact .inr ⟨p, hp, (hright.path_accept_iff (hfb.initial_mem hp)).1 hpath⟩
  · rintro (⟨p, hp, haccepts⟩ | ⟨p, hp, haccepts⟩)
    · exact ⟨p, .inl hp, (hleft.path_accept_iff (hfa.initial_mem hp)).2 haccepts⟩
    · exact ⟨p, .inr hp, (hright.path_accept_iff (hfb.initial_mem hp)).2 haccepts⟩

end Apart

/-- **The union of two automata accepts the words of either**, whatever labels they
share: the left one is renamed before they are joined. -/
theorem WellFormed.exists_union_accepts (hfa : fa.WellFormed) (hfb : fb.WellFormed)
    (hboth : bothDeterminized fa fb = true) :
    ∃ u, fa.union fb = .ok u ∧
      ∀ w, u.accepts w = true ↔ fa.accepts w = true ∨ fb.accepts w = true := by
  obtain ⟨pool, i, j, hapart, heq⟩ := exists_union hboth
  refine ⟨_, heq, fun w => ?_⟩
  rw [hapart.accepts_joined (hfa.renameWith pool) hfb, hfa.accepts_renameWith pool]

end FiniteState.Automaton
