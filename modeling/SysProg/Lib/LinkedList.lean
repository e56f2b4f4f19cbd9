import Mathlib.Data.List.Nodup
import Mathlib.Logic.Function.Basic

/-!
# Linked lists in memory

Nodes with a pointer to the next one, and NULL in the last.  `Chain m p as xs` says that from the
pointer `p` there are nodes at the addresses `as`, with `xs` in them.

* What is in memory elsewhere does not matter (`Chain.congr`), no node comes twice
  (`Chain.nodup`), and the pointer determines the chain (`Chain.unique`).
* `last` is the loop to the last node, on which a new one is hung (`Chain.concat`).
* `freeAll` frees the nodes one by one: each is still there when it is its turn, and afterwards
  memory is what it was without the chain (`Chain.freeAll`).
-/

universe u v

namespace SysProg.Lib

/-- A node: what is in it, and the pointer to the next one. -/
structure Node (α : Type u) where
  val : α
  next : Option Nat
deriving DecidableEq

/-- The nodes that are allocated, by their addresses. -/
abbrev Nodes (α : Type u) := Nat → Option (Node α)

/-- The nodes from `p` on to the one with NULL. -/
inductive Chain {α : Type u} (m : Nodes α) : Option Nat → List Nat → List α → Prop
  | nil : Chain m none [] []
  | cons {a : Nat} {next : Option Nat} {x : α} {as : List Nat} {xs : List α}
      (ha : m a = some ⟨x, next⟩) (h : Chain m next as xs) : Chain m (some a) (a :: as) (x :: xs)

variable {α : Type u} {m m' : Nodes α} {p : Option Nat} {a b : Nat} {as as' : List Nat} {x : α}
  {xs xs' : List α}

namespace Chain

theorem length_eq (h : Chain m p as xs) : as.length = xs.length := by
  induction h with
  | nil => rfl
  | cons _ _ ih => rw [List.length_cons, List.length_cons, ih]

/-- The pointer leads to the first node. -/
theorem map_val (h : Chain m p as xs) : (p.bind m).map Node.val = xs.head? := by
  cases h with
  | nil => rfl
  | cons ha _ =>
      rw [Option.bind_some, ha]
      rfl

/-- Only the nodes of the chain count. -/
theorem congr (h : Chain m p as xs) (heq : ∀ a ∈ as, m' a = m a) : Chain m' p as xs := by
  induction h with
  | nil => exact .nil
  | cons ha _ ih =>
      obtain ⟨hhead, htail⟩ := List.forall_mem_cons.mp heq
      exact .cons (hhead.trans ha) (ih htail)

theorem unique (h : Chain m p as xs) (h' : Chain m p as' xs') : as = as' ∧ xs = xs' := by
  induction h generalizing as' xs' with
  | nil => cases h'; exact ⟨rfl, rfl⟩
  | cons ha _ ih =>
      cases h' with
      | cons ha' h' =>
          rw [ha] at ha'
          cases ha'
          obtain ⟨rfl, rfl⟩ := ih h'
          exact ⟨rfl, rfl⟩

/-- What follows a node of the chain is a shorter chain. -/
theorem exists_of_mem (h : Chain m p as xs) (ha : a ∈ as) :
    ∃ as' xs', Chain m (some a) as' xs' ∧ as'.length ≤ as.length := by
  induction h with
  | nil => cases ha
  | cons hb h ih =>
      rcases List.mem_cons.mp ha with rfl | ha
      · exact ⟨_, _, .cons hb h, Nat.le_refl _⟩
      · obtain ⟨as', xs', h', hlen⟩ := ih ha
        exact ⟨as', xs', h', Nat.le_succ_of_le hlen⟩

/-- **No node comes twice**: it would be followed by chains of two lengths. -/
theorem nodup (h : Chain m p as xs) : as.Nodup := by
  induction h with
  | nil => exact List.nodup_nil
  | @cons a next x as xs ha h ih =>
      refine List.nodup_cons.mpr ⟨fun hmem ↦ ?_, ih⟩
      obtain ⟨as', xs', h', hlen⟩ := h.exists_of_mem hmem
      obtain ⟨rfl, -⟩ := (Chain.cons ha h).unique h'
      rw [List.length_cons] at hlen
      omega

end Chain

/-! ## Hanging a node on the end -/

/-- `while (temp->next != NULL) temp = temp->next;` in no more than `steps` turns, for nodes that
are allocated. -/
def last (m : Nodes α) : Nat → Nat → Option Nat
  | 0, _ => none
  | steps + 1, temp =>
      (m temp).bind fun node ↦
        match node.next with
        | none => some temp
        | some temp => last m steps temp

/-- `p->next = b` -/
def link (m : Nodes α) (p b : Nat) : Option (Nodes α) :=
  (m p).map fun node ↦ Function.update m p (some { node with next := some b })

/-- **A node is hung on the end** of the chain; nothing else changes. -/
theorem Chain.concat (h : Chain m (some a) as xs) (hb : m b = some ⟨x, none⟩) (hfresh : b ∉ as)
    {steps : Nat} (hsteps : as.length ≤ steps) :
    ∃ c m', last m steps a = some c ∧ link m c b = some m' ∧
      Chain m' (some a) (as ++ [b]) (xs ++ [x]) ∧ ∀ d ∉ as, m' d = m d := by
  generalize hp : some a = p at h
  induction h generalizing a steps with
  | nil => cases hp
  | @cons a' next y as xs ha h ih =>
      obtain rfl := Option.some.inj hp
      obtain ⟨hba, hfresh⟩ := not_or.mp (mt List.mem_cons.mpr hfresh)
      obtain ⟨steps, rfl⟩ : ∃ n, steps = n + 1 :=
        ⟨steps - 1, (Nat.sub_add_cancel (Nat.one_le_of_lt hsteps)).symm⟩
      cases next with
      | none =>
          cases h
          have hlast : last m (steps + 1) a = some a := by rw [last, ha]; rfl
          have hlink : link m a b = some (Function.update m a (some ⟨y, some b⟩)) := by
            rw [link, ha]
            rfl
          refine ⟨a, _, hlast, hlink, ?_, fun d hd ↦ ?_⟩
          · refine .cons (Function.update_self ..) (.cons ?_ .nil)
            rw [Function.update_of_ne hba, hb]
          · exact Function.update_of_ne (List.ne_of_not_mem_cons hd) _ _
      | some temp =>
          have hlast : last m (steps + 1) a = last m steps temp := by rw [last, ha]; rfl
          rw [hlast]
          obtain ⟨c, m', hc, hm', hchain, hother⟩ := ih hfresh (Nat.le_of_succ_le_succ hsteps) rfl
          have hnodup := (List.nodup_cons.mp (Chain.cons ha h).nodup).1
          refine ⟨c, m', hc, hm', .cons ((hother a hnodup).trans ha) hchain, fun d hd ↦ ?_⟩
          exact hother d (List.not_mem_of_not_mem_cons hd)

/-! ## Freeing the nodes -/

/-- `free(p)`, for a node that is allocated. -/
def free (m : Nodes α) (p : Nat) : Option (Nodes α) :=
  (m p).map fun _ ↦ Function.update m p none

/-- The nodes from `p` on are freed, in no more than `steps` turns. -/
def freeAll (m : Nodes α) : Nat → Option Nat → Option (Nodes α)
  | _, none => some m
  | 0, some _ => none
  | steps + 1, some temp =>
      (m temp).bind fun node ↦ (free m temp).bind fun m ↦ freeAll m steps node.next

/-- **Every node is freed**, and is there when it is freed; nothing else changes. -/
theorem Chain.freeAll (h : Chain m p as xs) {steps : Nat} (hsteps : as.length ≤ steps) :
    ∃ m', Lib.freeAll m steps p = some m' ∧ (∀ a ∈ as, m' a = none) ∧
      ∀ a ∉ as, m' a = m a := by
  induction as generalizing m p xs steps with
  | nil =>
      cases h
      exact ⟨m, by rw [Lib.freeAll], fun _ ha ↦ absurd ha List.not_mem_nil, fun _ _ ↦ rfl⟩
  | cons a as ih =>
      have hnodup := h.nodup
      cases h with
      | @cons _ next x _ xs ha h =>
          obtain ⟨hnotin, -⟩ := List.nodup_cons.mp hnodup
          obtain ⟨steps, rfl⟩ : ∃ n, steps = n + 1 :=
            ⟨steps - 1, (Nat.sub_add_cancel (Nat.one_le_of_lt hsteps)).symm⟩
          have hfree : free m a = some (Function.update m a none) := by
            rw [free, ha]
            rfl
          have hrest : Chain (Function.update m a none) next as xs :=
            h.congr fun b hb ↦ Function.update_of_ne (ne_of_mem_of_not_mem hb hnotin) _ _
          obtain ⟨m', hm', hnone, hother⟩ := ih hrest (Nat.le_of_succ_le_succ hsteps)
          refine ⟨m', ?_, List.forall_mem_cons.mpr ⟨?_, hnone⟩, fun b hb ↦ ?_⟩
          · rw [Lib.freeAll, ha, Option.bind_some, hfree, Option.bind_some, hm']
          · rw [hother a hnotin, Function.update_self]
          · rw [hother b (List.not_mem_of_not_mem_cons hb),
              Function.update_of_ne (List.ne_of_not_mem_cons hb)]

end SysProg.Lib
