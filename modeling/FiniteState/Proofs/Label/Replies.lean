import Mathlib.Data.Set.Insert
import FiniteState.Proofs.Label.Letters
import FiniteState.Proofs.Label.Requests

/-!
# The replies of a pool

What a pool replies to a request depends on the labels that earlier requests claimed, and on
nothing else that happened before: a letter is reserved if it was not claimed, and the label that
is handed out is the first one of the sequence `A` … `Z`, `A1` … `Z1`, `A2` … that was not.  The
replies that are due can therefore be told from the requests and the replies before them, without
a look into the pool.

## Main definitions

* `LabelPool.Reply`, `LabelPool.reply`, `LabelPool.replies` — what a pool replies.
* `LabelPool.Request.claims?` — the label that a request claims, as its reply tells.
* `LabelPool.Due` — the reply that is due to a request, after some labels were claimed.
* `LabelPool.Exact` — the replies to several requests are those that are due.
* `LabelPool.handedOut` — the labels that were handed out, as the replies tell.

## Main results

* `LabelPool.Due.unique`, `LabelPool.Exact.unique` — only one reply is due.
* `LabelPool.Exact.fresh` — where replies are exact, **no label is handed out twice**.
* `LabelPool.due_reply`, `LabelPool.exact_replies` — **a pool gives the replies that are due**.
-/

namespace FiniteState.LabelPool

/-! ### Requests and replies -/

/-- The reply to a request. -/
inductive Reply
  /-- A label was excluded. -/
  | done
  /-- Whether a letter was reserved. -/
  | granted (given : Bool)
  /-- A label is handed out. -/
  | label (l : Label)
  deriving DecidableEq

/-- The reply to a request. -/
def reply (pool : LabelPool) : Request → Reply
  | .exclude _ => .done
  | .reserve l => .granted (pool.reserve l).1
  | .take => .label pool.take.1

/-- The replies to several requests, one after the other. -/
def replies : LabelPool → List Request → List Reply
  | _, [] => []
  | pool, request :: rest => pool.reply request :: replies (pool.serve request) rest

/-- The label that a request claims, as its reply tells. -/
def Request.claims? : Request → Reply → Option Label
  | .exclude l, _ => some l
  | .reserve l, .granted true => some l
  | .take, .label l => some l
  | _, _ => none

/-- The labels that were handed out. -/
def handedOut (replies : List Reply) : List Label :=
  replies.filterMap fun
    | .label l => some l
    | _ => none

/-! ### The replies that are due -/

/-- **The reply that is due** to a request, after some labels were claimed. -/
def Due (claimed : Set Label) : Request → Reply → Prop
  | .exclude _, reply => reply = .done
  | .reserve l, reply => ∃ given, reply = .granted given ∧
      (given = true ↔ (∃ c, 'A' ≤ c ∧ c ≤ 'Z' ∧ l = .ofChar c) ∧ l ∉ claimed)
  | .take, reply => ∃ i, reply = .label (.nth i) ∧
      Label.nth i ∉ claimed ∧ ∀ j < i, Label.nth j ∈ claimed

/-- **All replies are due**, each after the labels that were claimed until then. -/
def Exact : Set Label → List Request → List Reply → Prop
  | _, [], [] => True
  | claimed, request :: requests, reply :: replies =>
    Due claimed request reply ∧
      Exact {l | request.claims? reply = some l ∨ l ∈ claimed} requests replies
  | _, _, _ => False

variable {claimed : Set Label} {request : Request} {reply reply' : Reply}
  {requests : List Request} {replies replies' : List Reply} {l : Label}

/-- No two replies are due to one request. -/
theorem Due.unique (h : Due claimed request reply) (h' : Due claimed request reply') :
    reply = reply' := by
  cases request with
  | exclude l => exact Eq.trans h (Eq.symm h')
  | reserve l =>
    obtain ⟨given, rfl, hgiven⟩ := h
    obtain ⟨given', rfl, hgiven'⟩ := h'
    rw [Bool.eq_iff_iff.2 (hgiven.trans hgiven'.symm)]
  | take =>
    obtain ⟨i, rfl, hfree, hbelow⟩ := h
    obtain ⟨j, rfl, hfree', hbelow'⟩ := h'
    rcases Nat.lt_trichotomy i j with hlt | rfl | hlt
    · exact absurd (hbelow' i hlt) hfree
    · rfl
    · exact absurd (hbelow j hlt) hfree'

/-- The label that is handed out was not claimed before, and is claimed then. -/
theorem Due.of_label (h : Due claimed request (.label l)) :
    l ∉ claimed ∧ request.claims? (.label l) = some l := by
  cases request with
  | exclude m => cases h
  | reserve m =>
    obtain ⟨given, hreply, -⟩ := h
    cases hreply
  | take =>
    obtain ⟨i, hreply, hfree, -⟩ := h
    cases hreply
    exact ⟨hfree, rfl⟩

/-- Only one list of replies is exact. -/
theorem Exact.unique (h : Exact claimed requests replies) (h' : Exact claimed requests replies') :
    replies = replies' := by
  induction requests generalizing claimed replies replies' with
  | nil =>
    cases replies with
    | nil => cases replies' with
      | nil => rfl
      | cons => exact h'.elim
    | cons => exact h.elim
  | cons request requests ih =>
    cases replies with
    | nil => exact h.elim
    | cons reply replies => cases replies' with
      | nil => exact h'.elim
      | cons reply' replies' =>
        obtain rfl := h.1.unique h'.1
        rw [ih h.2 h'.2]

/-- **No label is handed out twice**, and none that was claimed before the requests. -/
theorem Exact.fresh (h : Exact claimed requests replies) :
    (handedOut replies).Nodup ∧ ∀ l ∈ handedOut replies, l ∉ claimed := by
  induction requests generalizing claimed replies with
  | nil =>
    cases replies with
    | nil => exact ⟨.nil, fun _ h => absurd h List.not_mem_nil⟩
    | cons => exact h.elim
  | cons request requests ih =>
    cases replies with
    | nil => exact h.elim
    | cons reply replies =>
      obtain ⟨hdue, hrest⟩ := h
      obtain ⟨hnd, hfree⟩ := ih hrest
      have hfree' : ∀ l ∈ handedOut replies, l ∉ claimed :=
        fun l hl hmem => hfree l hl (.inr hmem)
      cases reply with
      | done => exact ⟨hnd, hfree'⟩
      | granted given => exact ⟨hnd, hfree'⟩
      | label l =>
        -- what is handed out now is claimed when the others are handed out
        obtain ⟨hl, hclaims⟩ := hdue.of_label
        refine ⟨List.nodup_cons.2 ⟨fun hmem => hfree l hmem (.inl hclaims), hnd⟩, ?_⟩
        intro m hm
        rcases List.mem_cons.1 hm with rfl | hm
        · exact hl
        · exact hfree' m hm

/-! ### A pool gives them -/

variable {pool : LabelPool}

/-- A label is reserved iff it is a letter and free. -/
theorem reserve_iff : (pool.reserve l).1 = true ↔ l.isLetter = true ∧ l ∉ pool.used := by
  refine ⟨fun h => ⟨(reserve_eq_true h).1, (reserve_eq_true h).2.1⟩, fun h => ?_⟩
  rw [reserve, if_pos (by simp [h.1, h.2])]

/-- **A pool gives the reply that is due**, after the labels that are in use. -/
theorem due_reply : Due {l | l ∈ pool.used} request (pool.reply request) := by
  cases request with
  | exclude l => rfl
  | reserve l => exact ⟨_, rfl, reserve_iff.trans (and_congr_left' Label.isLetter_iff)⟩
  | take => exact ⟨_, rfl, take_notMem_used pool, fun _ => nth_mem_used_of_lt⟩

/-- What a request claims is told by its reply. -/
theorem claim?_eq : pool.claim? request = request.claims? (pool.reply request) := by
  cases request with
  | exclude l => rfl
  | reserve l =>
    rw [claim?, reply]
    cases (pool.reserve l).1 <;> rfl
  | take => rfl

/-- **The replies of a pool are exact**, whatever was requested. -/
theorem exact_replies : Exact {l | l ∈ pool.used} requests (pool.replies requests) := by
  induction requests generalizing pool with
  | nil => trivial
  | cons request requests ih =>
    refine ⟨due_reply, ?_⟩
    have hused : {l | request.claims? (pool.reply request) = some l ∨ l ∈ {l | l ∈ pool.used}} =
        {l | l ∈ (pool.serve request).used} := by
      ext l
      rw [← claim?_eq]
      exact mem_used_serve.symm
    rw [hused]
    exact ih

end FiniteState.LabelPool
