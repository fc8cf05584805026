import FiniteState.Proofs.Construction
import FiniteState.Proofs.Automaton.Constructed
import FiniteState.Proofs.Split.Edit

/-!
# Construction loops that write

A construction loop writes down what it finds while it goes through its queue: a state when it is
discovered, with its mark, and a transition when a symbol has been followed from the state that was
taken from the queue.  The script grows at its end only.  At every moment the states that have been
written are those that have labels, in the same order; every transition that has been written is one
of the machine; and those of the states taken from the queue have all been written.

## Main definitions

* `Writing`, `Writing.discover`, `Writing.follow`, `Writing.turn` — the loop with its script.
* `Writing.written` — the script after some turns.
* `Writing.Faithful` — what holds of the script at every moment.

## Main results

* `Writing.Faithful.turn` — **a turn keeps the script faithful**.
* `Writing.performAll_written` — **when the loop is over, the automaton of the machine has been
  written**.
-/

namespace FiniteState

open Construction

/-- A construction loop, with the edits that it has written down. -/
structure Writing (κ ι : Type) where
  /-- Where the loop stands. -/
  loop : Construction κ ι
  /-- What it has written, in this order. -/
  script : List Edit

namespace Writing

variable {κ ι : Type}

section Loop

variable [DecidableEq ι] (key : κ → ι) (name : List Label → κ → Label) (m : Machine κ)

/-- The label that was given out under the key of a state. -/
def labelOf (w : Writing κ ι) (k : κ) : Label := (w.loop.labels.lookup (key k)).getD ""

/-- A state is discovered.  Unless its key has a label, it gets one and is written down under this
label, with its mark. -/
def discover (w : Writing κ ι) (k : κ) : Writing κ ι :=
  if (w.loop.labels.lookup (key k)).isSome then w
  else
    let l := name (w.loop.labels.map (·.2)) k
    { loop := w.loop.discover key name k
      script := w.script ++ .state l :: if m.accepting k then [.final l] else [] }

/-- A symbol is followed from a state.  If it leads somewhere, that state is discovered, and then
the transition is written down. -/
def follow (e : κ × Label) (w : Writing κ ι) (s : Symbol) : Writing κ ι :=
  match m.step e.1 s with
  | none => w
  | some k =>
    let w := w.discover key name m k
    { w with script := w.script ++ [.transition e.2 s (w.labelOf key k)] }

/-- One turn of the loop: a state is taken from the queue and all symbols are followed from it. -/
def turn (w : Writing κ ι) : Writing κ ι :=
  match w.loop.queue with
  | [] => w
  | e :: rest =>
    m.alphabet.foldl (follow key name m e)
      { w with loop := { w.loop with processed := w.loop.processed ++ [e], queue := rest } }

/-- The loop begins with the symbols and the initial state. -/
def start : Writing κ ι :=
  let w : Writing κ ι := ⟨⟨[], [], []⟩, m.alphabet.map .symbol⟩
  match m.initial with
  | none => w
  | some k =>
    let w := w.discover key name m k
    { w with script := w.script ++ [.initial (some (w.labelOf key k))] }

/-- What has been written after some turns. -/
def written (turns : ℕ) : List Edit := ((turn key name m)^[turns] (start key name m)).script

end Loop

variable {key : κ → ι} {name : List Label → κ → Label} {m : Machine κ} {w w' : Writing κ ι}
  {e : κ × Label} {k : κ} {s : Symbol}

/-! ### The loop behind the script -/

section Behind

variable [DecidableEq ι]

theorem loop_discover (w : Writing κ ι) (k : κ) :
    (w.discover key name m k).loop = w.loop.discover key name k := by
  unfold discover
  split
  · rename_i hsome
    rw [Construction.discover, if_pos hsome]
  · rfl

theorem loop_follow (w : Writing κ ι) (e : κ × Label) (s : Symbol) :
    (follow key name m e w s).loop =
      ((m.step e.1 s).toList.foldl (Construction.discover key name) w.loop) := by
  unfold follow
  cases m.step e.1 s with
  | none => rfl
  | some k => exact loop_discover w k

theorem loop_foldl_follow (w : Writing κ ι) (e : κ × Label) (ss : List Symbol) :
    (ss.foldl (follow key name m e) w).loop =
      (ss.filterMap (m.step e.1)).foldl (Construction.discover key name) w.loop := by
  induction ss generalizing w with
  | nil => rfl
  | cons s ss ih =>
    rw [List.foldl_cons, ih, loop_follow, List.filterMap_cons]
    cases m.step e.1 s <;> rfl

/-- **Writing does not change the loop.** -/
theorem loop_turn (w : Writing κ ι) :
    (w.turn key name m).loop = w.loop.turn key name m.successors := by
  obtain ⟨⟨labels, processed, queue⟩, script⟩ := w
  cases queue with
  | nil => rfl
  | cons e rest => exact loop_foldl_follow _ e m.alphabet

theorem loop_start :
    (start key name m).loop = Construction.start key name m.initial.toList := by
  unfold start
  cases m.initial with
  | none => rfl
  | some k => exact loop_discover _ k

theorem loop_iterate (turns : ℕ) : ((turn key name m)^[turns] (start key name m)).loop =
    (Construction.turn key name m.successors)^[turns]
      (Construction.start key name m.initial.toList) := by
  induction turns with
  | zero => exact loop_start
  | succ turns ih => rw [Function.iterate_succ_apply', Function.iterate_succ_apply', loop_turn, ih]

end Behind

/-! ### Every moment of the loop -/

/-- The states that have labels, with these labels. -/
def entries (w : Writing κ ι) : List (κ × Label) := w.loop.processed ++ w.loop.queue

/-- The table that has been written. -/
def table (w : Writing κ ι) : Automaton := Automaton.empty.performAll w.script

/-- **What holds of the script at every moment.** -/
structure Faithful (key : κ → ι) (name : List Label → κ → Label) (m : Machine κ)
    (w : Writing κ ι) : Prop where
  /-- The labels are those of the entries. -/
  entered : w.loop.labels = w.entries.map fun (k, l) => (key k, l)
  /-- They were given out one after the other. -/
  named : w.entries = Construction.named name (w.entries.map Prod.fst)
  /-- No state has two entries. -/
  once : (w.entries.map Prod.fst).Nodup
  /-- The states that have been written are the labels, in the same order. -/
  states : w.table.states = w.entries.map Prod.snd
  /-- All symbols have been written, and no others. -/
  alphabet : w.table.alphabet = m.alphabet
  /-- The marks are those of the entries that accept. -/
  finals : w.table.finals = (w.entries.filter fun e => m.accepting e.1).map Prod.snd
  /-- Every transition is one of the machine. -/
  sound : ∀ {q s r}, .transition q s r ∈ w.script →
    s ∈ m.alphabet ∧ ∃ k l, (k, q) ∈ w.entries ∧ (l, r) ∈ w.entries ∧ m.step k s = some l

/-- The loop has gone on, without a state being taken from the queue. -/
structure GoneOn (w w' : Writing κ ι) : Prop where
  /-- The same states were taken from the queue. -/
  processed : w'.loop.processed = w.loop.processed
  /-- No entry is lost. -/
  entries : w.entries ⊆ w'.entries
  /-- Nothing that was written is lost. -/
  script : w.script ⊆ w'.script
  /-- The initial state stays. -/
  initial : w'.table.initial = w.table.initial

theorem GoneOn.refl (w : Writing κ ι) : w.GoneOn w :=
  ⟨rfl, fun _ he => he, fun _ he => he, rfl⟩

theorem GoneOn.trans {w'' : Writing κ ι} (h : w.GoneOn w') (h' : w'.GoneOn w'') : w.GoneOn w'' :=
  ⟨h'.processed.trans h.processed, fun _ he => h'.entries (h.entries he),
    fun _ he => h'.script (h.script he), h'.initial.trans h.initial⟩

/-- The transitions of the states taken from the queue have been written. -/
def Complete (m : Machine κ) (w : Writing κ ι) : Prop :=
  ∀ e ∈ w.loop.processed, ∀ s ∈ m.alphabet, ∀ k, m.step e.1 s = some k →
    ∃ r, .transition e.2 s r ∈ w.script

/-- The initial state has been written. -/
def Begun (m : Machine κ) (w : Writing κ ι) : Prop :=
  match m.initial with
  | none => w.table.initial = none
  | some k => ∃ l, (k, l) ∈ w.entries ∧ w.table.initial = some l

/-- More edits at the end of the script are performed on what has been written. -/
theorem table_append (c : Construction κ ι) (script script' : List Edit) :
    table ⟨c, script ++ script'⟩ = (Automaton.empty.performAll script).performAll script' :=
  Automaton.performAll_append _ _ _

namespace Faithful

variable (h : w.Faithful key name m)

include h

theorem map_snd_labels : w.loop.labels.map (·.2) = w.entries.map Prod.snd := by
  rw [h.entered, List.map_map]
  rfl

theorem mem_states_of_mem_entries (he : e ∈ w.entries) : e.2 ∈ w.table.states := by
  rw [h.states]
  exact List.mem_map.2 ⟨e, he, rfl⟩

/-- An edit that names no new states and leaves the marks alone can be written at the end. -/
theorem write {d : Edit} (hstates : ∀ q ∈ d.states, q ∈ w.table.states)
    (hsymbols : ∀ s ∈ d.symbols, s ∈ m.alphabet) (hmarks : ∀ finals, Edit.marks finals d = finals)
    (hsound : ∀ {q s r}, .transition q s r = d →
      s ∈ m.alphabet ∧ ∃ k l, (k, q) ∈ w.entries ∧ (l, r) ∈ w.entries ∧ m.step k s = some l) :
    Faithful key name m ⟨w.loop, w.script ++ [d]⟩ := by
  have htable : table ⟨w.loop, w.script ++ [d]⟩ = w.table.perform d := table_append _ _ _
  refine ⟨h.entered, h.named, h.once, ?_, ?_, ?_, fun {q s r} hr => ?_⟩
  · rw [htable, Automaton.states_perform, foldl_insertNew_of_subset hstates]
    exact h.states
  · rw [htable, Automaton.alphabet_perform, h.alphabet]
    exact foldl_insertNew_of_subset hsymbols
  · rw [htable, Automaton.finals_perform, hmarks]
    exact h.finals
  · rcases List.mem_append.1 hr with hr | hr
    · exact h.sound hr
    · exact hsound (List.mem_singleton.1 hr)

variable [DecidableEq ι] (hkey : Function.Injective key)

include hkey

theorem isSome_lookup_iff :
    (w.loop.labels.lookup (key k)).isSome = true ↔ k ∈ w.entries.map Prod.fst := by
  rw [List.lookup_isSome_iff, h.entered]
  simp [hkey.eq_iff]

theorem labelOf_eq {l : Label} (hl : (k, l) ∈ w.entries) : w.labelOf key k = l := by
  have hkeys : w.loop.labels.map Prod.fst = (w.entries.map Prod.fst).map key := by
    rw [h.entered, List.map_map, List.map_map]
    rfl
  have hmem : (key k, l) ∈ w.loop.labels := by
    rw [h.entered]
    exact List.mem_map.2 ⟨(k, l), hl, rfl⟩
  rw [labelOf, List.lookup_eq_some_of_mem (hkeys ▸ h.once.map hkey) hmem, Option.getD_some]

variable (hname : ∀ keys : List κ, keys.Nodup → ((Construction.named name keys).map Prod.snd).Nodup)

include hname

/-- **A state that is discovered is written down**, unless it has been before. -/
theorem discover (k : κ) : (w.discover key name m k).Faithful key name m ∧
    w.GoneOn (w.discover key name m k) ∧ ∃ l, (k, l) ∈ (w.discover key name m k).entries := by
  by_cases hk : k ∈ w.entries.map Prod.fst
  · have hw : w.discover key name m k = w := if_pos ((h.isSome_lookup_iff hkey).2 hk)
    rw [hw]
    obtain ⟨⟨k', l⟩, he, rfl⟩ := List.mem_map.1 hk
    exact ⟨h, .refl w, l, he⟩
  · have hnone := mt (h.isSome_lookup_iff hkey).1 hk
    let l := name (w.loop.labels.map (·.2)) k
    let new : List Edit := .state l :: if m.accepting k then [.final l] else []
    have hw : w.discover key name m k =
        ⟨⟨w.loop.labels ++ [(key k, l)], w.loop.processed, w.loop.queue ++ [(k, l)]⟩,
          w.script ++ new⟩ := by
      rw [Writing.discover, if_neg hnone, Construction.discover, if_neg hnone]
    have hentries : entries ⟨⟨w.loop.labels ++ [(key k, l)], w.loop.processed,
        w.loop.queue ++ [(k, l)]⟩, w.script ++ new⟩ = w.entries ++ [(k, l)] :=
      (List.append_assoc _ _ _).symm
    have honce : (w.entries.map Prod.fst ++ [k]).Nodup := by
      rw [← List.concat_eq_append]
      exact h.once.concat hk
    have hnamed : w.entries ++ [(k, l)] =
        Construction.named name (w.entries.map Prod.fst ++ [k]) := by
      rw [named_concat, ← h.named, ← h.map_snd_labels]
    -- the label is a new one
    have hl : l ∉ w.entries.map Prod.snd := by
      have hlabels := hname _ honce
      rw [← hnamed, List.map_append, List.nodup_append] at hlabels
      exact fun hmem => hlabels.2.2 l hmem l List.mem_cons_self rfl
    have hfinal : l ∉ (w.entries.filter fun e => m.accepting e.1).map Prod.snd :=
      fun hmem => hl ((List.filter_sublist.map Prod.snd).subset hmem)
    have htable : table ⟨⟨w.loop.labels ++ [(key k, l)], w.loop.processed,
        w.loop.queue ++ [(k, l)]⟩, w.script ++ new⟩ = w.table.performAll new := table_append _ _ _
    rw [hw]
    refine ⟨⟨?_, ?_, ?_, ?_, ?_, ?_, fun {q s r} hr => ?_⟩, ⟨rfl, ?_, ?_, ?_⟩, l, ?_⟩
    · rw [hentries, h.entered, List.map_append]
      rfl
    · rw [hentries, List.map_append, List.map_singleton, ← hnamed]
    · rw [hentries, List.map_append]
      exact honce
    · rw [hentries, htable, Automaton.states_performAll, h.states, List.map_append]
      cases hacc : m.accepting k <;> simp [new, hacc, Edit.states, insertNew, hl]
    · rw [htable, Automaton.alphabet_performAll, h.alphabet]
      cases hacc : m.accepting k <;> simp [new, hacc, Edit.symbols]
    · rw [hentries, htable, Automaton.finals_performAll, h.finals, List.filter_append,
        List.map_append]
      cases hacc : m.accepting k <;> simp [new, hacc, Edit.marks, insertNew_of_notMem hfinal]
    · rw [hentries]
      have hr : .transition q s r ∈ w.script := by
        cases hacc : m.accepting k <;> simpa [new, hacc] using hr
      obtain ⟨hs, k', l', hk', hl', hstep⟩ := h.sound hr
      exact ⟨hs, k', l', List.mem_append_left _ hk', List.mem_append_left _ hl', hstep⟩
    · rw [hentries]
      exact fun _ he => List.mem_append_left _ he
    · exact fun _ he => List.mem_append_left _ he
    · rw [htable, Automaton.initial_performAll]
      cases hacc : m.accepting k <;> simp [new, hacc, Edit.start]
    · rw [hentries]
      exact List.mem_append_right _ List.mem_cons_self

/-- **A symbol is followed from a state that has an entry.** -/
theorem follow (he : e ∈ w.entries) (hs : s ∈ m.alphabet) :
    (Writing.follow key name m e w s).Faithful key name m ∧
      w.GoneOn (Writing.follow key name m e w s) ∧
      ∀ k, m.step e.1 s = some k →
        ∃ r, .transition e.2 s r ∈ (Writing.follow key name m e w s).script := by
  cases hstep : m.step e.1 s with
  | none =>
    have hw : Writing.follow key name m e w s = w := by
      rw [Writing.follow, hstep]
    rw [hw]
    exact ⟨h, .refl w, fun k hk => by cases hk⟩
  | some k =>
    obtain ⟨h', hgone, l, hl⟩ := h.discover hkey hname k
    let w' := w.discover key name m k
    have hw : Writing.follow key name m e w s =
        ⟨w'.loop, w'.script ++ [.transition e.2 s l]⟩ := by
      rw [Writing.follow, hstep, ← h'.labelOf_eq hkey hl]
    have he' : e ∈ w'.entries := hgone.entries he
    have htable : table ⟨w'.loop, w'.script ++ [.transition e.2 s l]⟩ =
        w'.table.perform (.transition e.2 s l) := table_append _ _ _
    -- both states have been written before
    have hstates : ∀ q ∈ [e.2, l], q ∈ w'.table.states := List.forall_mem_cons.2
      ⟨h'.mem_states_of_mem_entries he', List.forall_mem_singleton.2
        (h'.mem_states_of_mem_entries hl)⟩
    rw [hw]
    refine ⟨h'.write hstates (List.forall_mem_singleton.2 hs) (fun _ => rfl) fun heq => ?_,
      ⟨hgone.processed, hgone.entries, fun _ he => List.mem_append_left _ (hgone.script he), ?_⟩,
      fun k' hk' => ⟨l, List.mem_append_right _ List.mem_cons_self⟩⟩
    · obtain ⟨rfl, rfl, rfl⟩ := Edit.transition.inj heq
      exact ⟨hs, e.1, k, he', hl, hstep⟩
    · rw [htable, Automaton.initial_perform]
      exact hgone.initial

/-- Several symbols are followed one after the other. -/
theorem foldl_follow (he : e ∈ w.entries) {ss : List Symbol} (hss : ∀ s ∈ ss, s ∈ m.alphabet) :
    (ss.foldl (Writing.follow key name m e) w).Faithful key name m ∧
      w.GoneOn (ss.foldl (Writing.follow key name m e) w) ∧
      ∀ s ∈ ss, ∀ k, m.step e.1 s = some k →
        ∃ r, .transition e.2 s r ∈ (ss.foldl (Writing.follow key name m e) w).script := by
  induction ss generalizing w with
  | nil => exact ⟨h, .refl w, fun s hs => absurd hs List.not_mem_nil⟩
  | cons s ss ih =>
    rw [List.forall_mem_cons] at hss
    obtain ⟨h', hgone, hwritten⟩ := h.follow hkey hname he hss.1
    obtain ⟨h'', hgone', hrest⟩ := ih h' (hgone.entries he) hss.2
    refine ⟨h'', hgone.trans hgone', fun t ht k hk => ?_⟩
    rcases List.mem_cons.1 ht with rfl | ht
    · obtain ⟨r, hr⟩ := hwritten k hk
      exact ⟨r, hgone'.script hr⟩
    · exact hrest t ht k hk

/-- **A turn keeps the script faithful**, and complete for the states taken from the queue. -/
theorem turn (hcomplete : Complete m w) : (w.turn key name m).Faithful key name m ∧
    Complete m (w.turn key name m) ∧ w.entries ⊆ (w.turn key name m).entries ∧
    (w.turn key name m).table.initial = w.table.initial := by
  obtain ⟨⟨labels, processed, queue⟩, script⟩ := w
  cases queue with
  | nil => exact ⟨h, hcomplete, fun _ he => he, rfl⟩
  | cons e rest =>
    let w : Writing κ ι := ⟨⟨labels, processed ++ [e], rest⟩, script⟩
    -- the state is moved, and so the entries stay
    have hentries : w.entries = entries ⟨⟨labels, processed, e :: rest⟩, script⟩ :=
      List.append_assoc _ _ _
    have hmoved : w.Faithful key name m := by
      refine ⟨?_, ?_, ?_, ?_, h.alphabet, ?_, ?_⟩ <;> rw [hentries]
      · exact h.entered
      · exact h.named
      · exact h.once
      · exact h.states
      · exact h.finals
      · exact h.sound
    have he : e ∈ w.entries := by
      rw [hentries]
      exact List.mem_append_right _ List.mem_cons_self
    obtain ⟨h', hgone, hwritten⟩ := hmoved.foldl_follow hkey hname he fun s hs => hs
    refine ⟨h', fun d hd s hs k hk => ?_, fun d hd => hgone.entries (hentries ▸ hd),
      hgone.initial⟩
    have hd : d ∈ w.loop.processed := hgone.processed ▸ hd
    rcases List.mem_append.1 hd with hd | hd
    · obtain ⟨r, hr⟩ := hcomplete d hd s hs k hk
      exact ⟨r, hgone.script hr⟩
    · obtain rfl := List.mem_singleton.1 hd
      exact hwritten s hs k hk

end Faithful

/-! ### The end of the loop -/

section End

variable [DecidableEq ι] (hkey : Function.Injective key)
  (hname : ∀ keys : List κ, keys.Nodup → ((Construction.named name keys).map Prod.snd).Nodup)
  (hsymbols : m.alphabet.Nodup)

include hkey hname hsymbols

/-- The loop begins faithfully, with the symbols and the initial state. -/
theorem faithful_start : (start key name m).Faithful key name m ∧
    Complete m (start key name m) ∧ Begun m (start key name m) := by
  let w : Writing κ ι := ⟨⟨[], [], []⟩, m.alphabet.map .symbol⟩
  have h : w.Faithful key name m := by
    refine ⟨rfl, rfl, .nil, ?_, ?_, ?_, fun hr => ?_⟩
    · rw [table, Automaton.states_performAll, Edit.flatMap_states_symbol]
      rfl
    · rw [table, Automaton.alphabet_performAll, Edit.flatMap_symbols_symbol]
      exact insertAll_of_nodup hsymbols
    · rw [table, Automaton.finals_performAll]
      exact Edit.foldl_marks_eq_self (by simp [w]) (by simp [w]) []
    · obtain ⟨s, -, heq⟩ := List.mem_map.1 hr
      cases heq
  have hnone : w.table.initial = none :=
    (Automaton.initial_performAll _ _).trans (Edit.foldl_start_eq_self (by simp [w]) none)
  cases hi : m.initial with
  | none =>
    have hw : start key name m = w := by
      rw [start, hi]
    rw [hw, Begun, hi]
    exact ⟨h, fun e he => absurd he List.not_mem_nil, hnone⟩
  | some k =>
    obtain ⟨h', hgone, l, hl⟩ := h.discover hkey hname k
    let w' := w.discover key name m k
    have hw : start key name m = ⟨w'.loop, w'.script ++ [.initial (some l)]⟩ := by
      rw [start, hi, ← h'.labelOf_eq hkey hl]
    have htable : table ⟨w'.loop, w'.script ++ [.initial (some l)]⟩ =
        w'.table.perform (.initial (some l)) := table_append _ _ _
    rw [hw, Begun, hi]
    refine ⟨h'.write (List.forall_mem_singleton.2 (h'.mem_states_of_mem_entries hl)) nofun
      (fun _ => rfl) nofun, fun e he => ?_, l, hl, ?_⟩
    · rw [hgone.processed] at he
      exact absurd he List.not_mem_nil
    · rw [htable, Automaton.initial_perform]
      rfl

/-- **At every moment the script is faithful.** -/
theorem faithful_iterate (turns : ℕ) :
    ((turn key name m)^[turns] (start key name m)).Faithful key name m ∧
      Complete m ((turn key name m)^[turns] (start key name m)) ∧
      Begun m ((turn key name m)^[turns] (start key name m)) := by
  induction turns with
  | zero => exact faithful_start hkey hname hsymbols
  | succ turns ih =>
    obtain ⟨h, hcomplete, hbegun⟩ := ih
    obtain ⟨h', hcomplete', hentries, hsame⟩ := h.turn hkey hname hcomplete
    rw [Function.iterate_succ_apply']
    refine ⟨h', hcomplete', ?_⟩
    unfold Begun at hbegun ⊢
    rw [hsame]
    cases hi : m.initial with
    | none => rwa [hi] at hbegun
    | some k =>
      rw [hi] at hbegun
      obtain ⟨l, hl, hinitial⟩ := hbegun
      exact ⟨l, hentries hl, hinitial⟩

/-- **When the loop is over, the automaton of the machine has been written**: the loop has gone
through the states of the machine, with their labels. -/
theorem performAll_written (h : m.Lawful) {describe : κ → Label} [DecidableEq κ]
    (hgoes : GoesThrough key (fun turns => (Construction.turn key name m.successors)^[turns]
      (Construction.start key name m.initial.toList)) (Label.distinct describe m.states))
    {turns : ℕ} (hturns : m.states.length ≤ turns) :
    Automaton.empty.performAll (written key name m turns) =
      (m.toAutomaton describe).withDeterminized false := by
  obtain ⟨hfaithful, hcomplete, hbegun⟩ := faithful_iterate hkey hname hsymbols turns
  let w := (turn key name m)^[turns] (start key name m)
  have hlength : (Label.distinct describe m.states).length ≤ turns := by
    rwa [← List.length_map, Label.map_fst_distinct]
  have hprocessed : w.loop.processed = Label.distinct describe m.states := by
    rw [loop_iterate, hgoes.taken, List.take_of_length_le hlength]
  have hqueue : w.loop.queue = [] := by
    rw [loop_iterate]
    exact (hgoes.ended turns).2 hlength
  have hentries : w.entries = Label.distinct describe m.states := by
    rw [entries, hprocessed, hqueue, List.append_nil]
  have hmem {k : κ} {l : Label} : (k, l) ∈ w.entries ↔ k ∈ m.states ∧ m.label describe k = l := by
    rw [hentries, h.distinct_eq]
    simp
  have hwf := Automaton.wellFormed_empty.performAll rfl w.script
  have hfilled := (h.wellFormed describe).withDeterminized_false
  refine hwf.ext_views hfilled ?_ hfaithful.alphabet (fun q s r => ?_) (fun q s => ?_) ?_ ?_ ?_
  · refine hfaithful.states.trans ?_
    rw [hentries]
    show _ = List.map Prod.fst (List.map _ (Label.distinct describe m.states))
    rw [List.map_map]
    rfl
  · rw [Automaton.mem_targets_empty_performAll]
    show _ ↔ r ∈ (m.toAutomaton describe).targets q s
    constructor
    · intro hr
      obtain ⟨hs, k, l, hsource, htarget, hstep⟩ := hfaithful.sound hr
      obtain ⟨hk, rfl⟩ := hmem.1 hsource
      exact (h.mem_targets_toAutomaton hk).2 ⟨hs, l, hstep, (hmem.1 htarget).2⟩
    · intro hr
      obtain ⟨k, hk, rfl, hs, l, hstep, rfl⟩ := h.exists_of_mem_targets_toAutomaton hr
      have he : (k, m.label describe k) ∈ w.loop.processed := by
        rw [hprocessed, ← hentries]
        exact hmem.2 ⟨hk, rfl⟩
      obtain ⟨r, hr⟩ := hcomplete _ he s hs l hstep
      -- what was written for the state and the symbol is this transition
      obtain ⟨-, k', l', hk', hl', hstep'⟩ := hfaithful.sound hr
      obtain ⟨hk', heq⟩ := hmem.1 hk'
      obtain rfl := Machine.label_inj hk' hk heq
      obtain rfl := Option.some.inj (hstep'.symm.trans hstep)
      rwa [(hmem.1 hl').2]
  · rw [Automaton.rejected_performAll]
    exact (Automaton.rejected_eq_none fun e he _ =>
      (h.constructed describe).unrejected e he).symm
  · show w.table.initial = (m.toAutomaton describe).initial
    rw [h.initial_toAutomaton]
    unfold Begun at hbegun
    cases hi : m.initial with
    | none => rwa [hi] at hbegun
    | some k =>
      rw [hi] at hbegun
      obtain ⟨l, hl, hinitial⟩ := hbegun
      rw [Option.map_some, (hmem.1 hl).2]
      exact hinitial
  · refine hfaithful.finals.trans ?_
    rw [hentries]
    rfl
  · rw [Automaton.determinized_performAll]
    rfl

end End

end Writing

end FiniteState
