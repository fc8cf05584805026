import FiniteState.Proofs.Automaton.Language
import FiniteState.Proofs.Automaton.Renamed
import FiniteState.Proofs.Label.Requests

/-!
# Renaming is an isomorphism

The names of the states may come from a pool that others have used before.  Whatever was asked
of it, a renaming only changes the names: two passes over the states, one that keeps the free
letters and one that hands out fresh labels, never give one name to two states, although a new
name may be the old name of another state.

## Main results

* `Obtainable.renaming` — **renaming is an isomorphism**, whatever the pool was asked for, and
  renaming twice is renaming once.
-/

namespace FiniteState.Automaton

open LabelPool

variable {fa : Automaton}

/-- **Renaming is an isomorphism.**  With names from a pool of which labels were asked in any way,
an automaton is the same table under other names and accepts the same words.  No new name was
claimed before, and a state that is named by a letter keeps this name unless it was claimed.
Renaming from the full pool twice is doing so once. -/
theorem Obtainable.renaming (h : fa.Obtainable) (requests : List Request) :
    let pool := full.serveAll requests
    fa.Renamed (fa.newName pool) (fa.renameWith pool).1 ∧
      (∀ w, (fa.renameWith pool).1.accepts w = fa.accepts w) ∧
      (∀ q ∈ fa.states, fa.newName pool q ∉ full.claimed requests) ∧
      (∀ q ∈ fa.states, q.isLetter = true → q ∉ full.claimed requests → fa.newName pool q = q) ∧
      fa.rename.rename = fa.rename := by
  intro pool
  have hfa := h.wellFormed
  refine ⟨renamed_relabel (hfa.injOn_newName pool), fun _ => hfa.accepts_renameWith pool,
    fun q hq => ?_, fun q hq hletter hfree => ?_, hfa.rename_rename⟩
  · rw [← mem_used_serveAll_full]
    exact newName_notMem pool hq
  · exact hfa.newName_eq_self hq hletter (mt mem_used_serveAll_full.1 hfree)

/-- The automaton of `ab` has the states `A`, `B` and `C`.  In the pool the first letter has been
handed out and the second one excluded, and it cannot be reserved any more.  So the third state
keeps its name, and the first two get the letters after it. -/
theorem renaming_letters :
    ∃ fa : Automaton, fa.Obtainable ∧ fa.states = ["A", "B", "C"] ∧
      full.claimed [.take, .exclude "B", .reserve "B"] = ["A", "B"] ∧
      fa.newName (full.serveAll [.take, .exclude "B", .reserve "B"]) "C" = "C" ∧
      (fa.renameWith (full.serveAll [.take, .exclude "B", .reserve "B"])).1.states =
        ["D", "E", "C"] ∧
      fa.rename.rename = fa.rename := by
  have hparse : Regex.parse ['a', 'b'] = .ok (.concatenation (.letter 'a') (.letter 'b')) := rfl
  have h := obtainable_automaton hparse
  obtain ⟨-, -, -, hkept, htwice⟩ := h.renaming [.take, .exclude "B", .reserve "B"]
  exact ⟨_, h, by decide, by decide, hkept "C" (by decide) (by decide) (by decide), by decide,
    htwice⟩

end FiniteState.Automaton
