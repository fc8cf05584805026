import FiniteState.Proofs.Label.Fresh

/-!
# Requests to a pool

A pool comes from the full one by requests: labels are excluded, single letters are reserved,
and fresh labels are handed out, in any order.  Whatever the requests were, the labels in use
afterwards are those that they claimed one after the other, no fewer and no more; a letter that
was in use already is not reserved again, so such a request claims nothing.

## Main definitions

* `LabelPool.Request` — the requests.
* `LabelPool.serve`, `LabelPool.serveAll` — the pool after one request, and after several.
* `LabelPool.claim?`, `LabelPool.claimed` — what they claim.

## Main results

* `LabelPool.mem_used_serve` — what one request does to the labels in use.
* `LabelPool.mem_used_serveAll` — **the labels in use are those that were claimed**.
-/

namespace FiniteState.LabelPool

/-- A request to a pool. -/
inductive Request
  /-- Never hand out a label. -/
  | exclude (l : Label)
  /-- Reserve a letter, if it is free. -/
  | reserve (l : Label)
  /-- Hand out a fresh label. -/
  | take

/-- The pool after a request. -/
def serve (pool : LabelPool) : Request → LabelPool
  | .exclude l => pool.exclude l
  | .reserve l => (pool.reserve l).2
  | .take => pool.take.2

/-- The label that a request claims: one that is excluded, reserved or handed out.  A request for
a letter that is not free claims none. -/
def claim? (pool : LabelPool) : Request → Option Label
  | .exclude l => some l
  | .reserve l => if (pool.reserve l).1 then some l else none
  | .take => some pool.take.1

/-- The pool after several requests. -/
def serveAll (pool : LabelPool) (requests : List Request) : LabelPool := requests.foldl serve pool

/-- The labels that several requests claim, one after the other. -/
def claimed : LabelPool → List Request → List Label
  | _, [] => []
  | pool, request :: rest => (pool.claim? request).toList ++ claimed (pool.serve request) rest

variable {pool : LabelPool} {l : Label} {request : Request} {requests : List Request}

/-- **What a request claims is in use from then on**, besides what was in use before. -/
theorem mem_used_serve :
    l ∈ (pool.serve request).used ↔ pool.claim? request = some l ∨ l ∈ pool.used := by
  cases request with
  | exclude m => rw [serve, used_exclude, List.mem_cons, claim?, Option.some.injEq, eq_comm]
  | reserve m =>
    rw [serve, claim?]
    cases hgrant : (pool.reserve m).1 with
    | true =>
      rw [(reserve_eq_true hgrant).2.2, used_exclude, List.mem_cons, if_pos rfl, Option.some.injEq,
        eq_comm]
    | false =>
      rw [reserve_eq_false hgrant, if_neg Bool.false_ne_true]
      exact (or_iff_right (Option.some_ne_none l).symm).symm
  | take => rw [serve, used_take, List.mem_cons, claim?, Option.some.injEq, eq_comm]

/-- **The labels in use are those that were claimed**, besides those in use before. -/
theorem mem_used_serveAll :
    l ∈ (pool.serveAll requests).used ↔ l ∈ pool.claimed requests ∨ l ∈ pool.used := by
  induction requests generalizing pool with
  | nil => exact (or_iff_right List.not_mem_nil).symm
  | cons request rest ih =>
    rw [serveAll, List.foldl_cons, ← serveAll, ih, mem_used_serve, claimed, List.mem_append,
      Option.mem_toList, ← or_assoc]
    exact or_congr_left or_comm

/-- In a pool that was full, only the labels that were claimed are in use. -/
theorem mem_used_serveAll_full :
    l ∈ (full.serveAll requests).used ↔ l ∈ full.claimed requests :=
  mem_used_serveAll.trans (or_iff_left List.not_mem_nil)

end FiniteState.LabelPool
