import SysProg.Lib.Lts

/-!
# A one-place buffer

What a producer and a consumer share who take turns: a place that is empty or holds
one item.  Items come out in the order they went in, and at most one is inside
(`puts_eq_of_run`); a protocol that is simulated by `slot` inherits this for what it
calls putting and taking.
-/

universe u

namespace SysProg.Lib

variable {α : Type u}

inductive SlotOp (α : Type u) where
  | put (x : α)
  | take (x : α)
deriving DecidableEq

/-- The place is empty before a `put`, and after a `take` of what it held. -/
inductive SlotStep : Option α → SlotOp α → Option α → Prop
  | put (x : α) : SlotStep none (.put x) (some x)
  | take (x : α) : SlotStep (some x) (.take x) none

/-- The one-place buffer, empty at first. -/
def slot (α : Type u) : Lts (Option α) (SlotOp α) where
  init t := t = none
  step := SlotStep

def SlotOp.getPut : SlotOp α → Option α
  | .put x => some x
  | .take _ => none

def SlotOp.getTake : SlotOp α → Option α
  | .put _ => none
  | .take x => some x

/-- The items put in so far are those taken out and the one that is inside. -/
theorem puts_eq_of_run {tr : List (SlotOp α)} {t : Option α} (h : (slot α).Run tr t) :
    tr.filterMap SlotOp.getPut = tr.filterMap SlotOp.getTake ++ t.toList := by
  refine h.induction (P := fun tr t ↦
    tr.filterMap SlotOp.getPut = tr.filterMap SlotOp.getTake ++ t.toList) ?_ ?_
  · rintro t rfl
    rfl
  · intro tr t a t' _ ih hs
    rw [Lts.filterMap_concat, Lts.filterMap_concat, ih]
    cases hs with
    | put x => simp [SlotOp.getPut, SlotOp.getTake]
    | take x => simp [SlotOp.getPut, SlotOp.getTake]

end SysProg.Lib
