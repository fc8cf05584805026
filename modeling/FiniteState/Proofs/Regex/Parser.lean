import FiniteState.Regex.Parser
import FiniteState.Proofs.List

/-!
# Expressions that are read from a text

A text becomes an expression whose letters are terminals: letters enter a frame
one at a time, where the reader has seen a terminal, and from then on pieces are
only put together.

## Main definitions

* `Regex.Expr.OverTerminals` — the letters of the expression are terminals.
* `Regex.Frame.OverTerminals` — so are those of everything in the frame.

## Main results

* `Regex.overTerminals_readChar` — **one character keeps the frames so**.
* `Regex.overTerminals_parse` — the letters of an expression that is read are
  terminals.
-/

namespace FiniteState.Regex

/-- The letters of the expression are terminals. -/
def Expr.OverTerminals (e : Expr Symbol) : Prop := ∀ s ∈ e.letters, Symbol.isTerminal s = true

variable {e e' : Expr Symbol} {f : Frame} {state state' : ParseState}

theorem Expr.OverTerminals.append (h : e.OverTerminals) (h' : e'.OverTerminals) {s : Symbol}
    (hs : s ∈ e.letters ++ e'.letters) : Symbol.isTerminal s = true :=
  (List.mem_append.1 hs).elim (h s) (h' s)

namespace Frame

/-- The letters of everything in the frame are terminals. -/
structure OverTerminals (f : Frame) : Prop where
  /-- Those of the alternatives that are finished are. -/
  branches : ∀ e ∈ f.branches, e.OverTerminals
  /-- Those of the pieces are. -/
  pieces : ∀ e ∈ f.pieces, e.OverTerminals
  /-- Those of the last piece are. -/
  last : ∀ e ∈ f.last, e.OverTerminals

theorem overTerminals_blank : blank.OverTerminals where
  branches _ he := by cases he
  pieces _ he := by cases he
  last _ he := by cases he

theorem overTerminals_append {before : Option (Expr Symbol)} (h : ∀ e ∈ before, e.OverTerminals)
    (he : e.OverTerminals) : (append before e).OverTerminals := by
  cases before with
  | none => exact he
  | some b => exact fun s hs => (h b rfl).append he hs

namespace OverTerminals

variable (h : f.OverTerminals)

include h

theorem allPieces : ∀ e ∈ f.allPieces, e.OverTerminals := by
  intro e he
  unfold Frame.allPieces at he
  cases hlast : f.last with
  | none =>
    rw [hlast] at he
    exact h.pieces e he
  | some piece =>
    rw [hlast] at he
    cases he
    exact overTerminals_append h.pieces (h.last piece hlast)

theorem push (he : e.OverTerminals) : (f.push e).OverTerminals where
  branches := h.branches
  pieces := h.allPieces
  last _ heq := Option.some.inj heq ▸ he

theorem star? {f' : Frame} (hstar : f.star? = some f') : f'.OverTerminals := by
  obtain ⟨piece, hpiece, rfl⟩ := Option.map_eq_some_iff.1 hstar
  refine ⟨h.branches, fun e he => ?_, fun e he => by cases he⟩
  cases he
  exact overTerminals_append h.pieces (e := .star piece) (h.last piece hpiece)

theorem close : f.close.OverTerminals := by
  have hbranch : (f.allPieces.getD .empty).OverTerminals := by
    cases hpieces : f.allPieces with
    | none => exact fun s hs => absurd hs List.not_mem_nil
    | some e => exact h.allPieces e hpieces
  unfold Frame.close
  cases hbranches : f.branches with
  | none => exact hbranch
  | some b => exact fun s hs => (h.branches b hbranches).append hbranch hs

theorem bar : f.bar.OverTerminals where
  branches _ heq := Option.some.inj heq ▸ h.close
  pieces _ he := by cases he
  last _ he := by cases he

end OverTerminals

end Frame

/-- The letters of all frames are terminals. -/
structure ParseState.OverTerminals (state : ParseState) : Prop where
  /-- Those of the innermost frame are. -/
  inner : state.inner.OverTerminals
  /-- Those of the frames that wait are. -/
  outer : ∀ frame ∈ state.outer, frame.2.OverTerminals

/-- **One character keeps the letters terminals.** -/
theorem overTerminals_readChar {c : ℕ × Char} (h : state.OverTerminals)
    (hread : readChar state c = .ok state') : state'.OverTerminals := by
  unfold readChar at hread
  split at hread
  · -- a bar
    cases hread
    exact ⟨h.inner.bar, h.outer⟩
  · -- a star
    split at hread
    · rename_i inner hstar
      cases hread
      exact ⟨h.inner.star? hstar, h.outer⟩
    · cases hread
  · -- an opening parenthesis, behind which the frame waits
    cases hread
    refine ⟨Frame.overTerminals_blank, fun frame hframe => ?_⟩
    rcases List.mem_cons.1 hframe with rfl | hframe
    · exact h.inner
    · exact h.outer frame hframe
  · -- a closing one: the frame becomes a piece of the one that waits
    split at hread
    · rename_i column frame outer houter
      cases hread
      have hall := h.outer
      rw [houter] at hall
      exact ⟨(hall _ List.mem_cons_self).push h.inner.close,
        fun frame hframe => hall frame (List.mem_cons_of_mem _ hframe)⟩
    · cases hread
  · -- only here a letter enters
    split at hread
    · rename_i hterminal
      cases hread
      refine ⟨h.inner.push fun s hs => ?_, h.outer⟩
      rwa [List.mem_singleton.1 hs]
    · cases hread

theorem overTerminals_foldlM {text : List (ℕ × Char)} (h : state.OverTerminals)
    (hread : text.foldlM readChar state = .ok state') : state'.OverTerminals := by
  induction text generalizing state with
  | nil =>
    cases hread
    exact h
  | cons c text ih =>
    rw [List.foldlM_cons] at hread
    obtain ⟨next, hnext, hread⟩ := exists_of_bind_eq_ok hread
    exact ih (overTerminals_readChar h hnext) hread

/-- **The letters of an expression that is read from a text are terminals.** -/
theorem overTerminals_parse {text : List Char} (h : parse text = .ok e) : e.OverTerminals := by
  unfold parse at h
  split at h
  · cases h
  · obtain ⟨state, hread, hfinish⟩ := exists_of_bind_eq_ok h
    have hstate := overTerminals_foldlM
      ⟨Frame.overTerminals_blank, fun _ hframe => absurd hframe List.not_mem_nil⟩ hread
    unfold finish at hfinish
    split at hfinish
    · cases hfinish
      exact hstate.inner.close
    · cases hfinish

end FiniteState.Regex
