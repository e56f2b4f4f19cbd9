import Mathlib.Data.List.Basic

/-!
# System V message queues

A queue is the list of its messages, oldest first.  `msgrcv` with a positive type
takes the oldest message of that type out of the queue, wherever it is, and
`msgrcv_eq_some` describes it by the messages before and after.
-/

universe u

namespace SysProg.Lib

/-- A message: `mtype` and what follows it. -/
structure Msg (β : Type u) where
  mtype : Int
  mtext : β
deriving DecidableEq

variable {β : Type u}

/-- `msgrcv(msqid, &msg, size, type, 0)` for a positive `type`; without a message of
that type the process sleeps. -/
def msgrcv (type : Int) : List (Msg β) → Option (Msg β × List (Msg β))
  | [] => none
  | m :: queue =>
      if m.mtype = type then some (m, queue)
      else (msgrcv type queue).map fun r ↦ (r.1, m :: r.2)

theorem msgrcv_eq_none {type : Int} {queue : List (Msg β)} :
    msgrcv type queue = none ↔ ∀ m ∈ queue, m.mtype ≠ type := by
  induction queue with
  | nil => simp [msgrcv]
  | cons m queue ih =>
      by_cases hm : m.mtype = type <;> simp [msgrcv, hm, ih]

/-- The message that is received is the first of its type. -/
theorem msgrcv_eq_some {type : Int} {queue queue' : List (Msg β)} {m : Msg β}
    (h : msgrcv type queue = some (m, queue')) :
    m.mtype = type ∧ ∃ pre post, queue = pre ++ m :: post ∧ queue' = pre ++ post ∧
      ∀ x ∈ pre, x.mtype ≠ type := by
  induction queue generalizing queue' with
  | nil => cases h
  | cons x queue ih =>
      rw [msgrcv] at h
      split at h
      · next hx =>
          cases h
          exact ⟨hx, [], queue, rfl, rfl, by simp⟩
      · next hx =>
          obtain ⟨⟨m', rest⟩, hrest, heq⟩ := Option.map_eq_some_iff.mp h
          cases heq
          obtain ⟨htype, pre, post, rfl, rfl, hpre⟩ := ih hrest
          refine ⟨htype, x :: pre, post, rfl, rfl, ?_⟩
          simpa using ⟨hx, hpre⟩

/-- What is left has been there before. -/
theorem mem_of_msgrcv {type : Int} {queue queue' : List (Msg β)} {m x : Msg β}
    (h : msgrcv type queue = some (m, queue')) (hx : x ∈ queue') : x ∈ queue := by
  obtain ⟨-, pre, post, rfl, rfl, -⟩ := msgrcv_eq_some h
  exact List.mem_append.mpr ((List.mem_append.mp hx).imp_right (List.mem_cons_of_mem _))

end SysProg.Lib
