import Mathlib.Data.List.Nodup
import Mathlib.Data.List.Perm.Subperm
import Mathlib.Logic.Relation

/-!
# Forests

What a depth-first search without marks walks over.  `children` is any graph; a `Forest` is a
list of trees, and it is `Grown` when every node has its children below it.

* `mem_preorder_iff`: the nodes are what can be reached from the roots.
* `sublist_of_child`, `sublist_of_sibling`: in `preorder` a node is before its children, and all
  that is below it before its next sibling.
* A graph is `Rooted` if no node has two parents and no root has one, as far as it can be reached.
  Then no node comes twice (`nodup_preorder`), and a finite one has a forest (`exists_grown`).
-/

universe u

namespace SysProg.Lib

/-- Some trees: the first root, what is below it, and the other trees. -/
inductive Forest (α : Type u) where
  | nil
  | node (a : α) (below next : Forest α)

variable {α : Type u} {children : α → List α}

/-- `x` is `n` steps below `a`. -/
inductive Under (children : α → List α) (a : α) : Nat → α → Prop
  | refl : Under children a 0 a
  | step {n : Nat} {x y : α} (h : Under children a n x) (hy : y ∈ children x) :
      Under children a (n + 1) y

/-- It can be reached from the roots. -/
def Reached (children : α → List α) (roots : List α) (x : α) : Prop :=
  ∃ r ∈ roots, ∃ n, Under children r n x

namespace Forest

def isNil : Forest α → Bool
  | nil => true
  | node .. => false

def roots : Forest α → List α
  | nil => []
  | node a _ next => a :: next.roots

/-- Each node, what is below it, and then its next sibling. -/
def preorder : Forest α → List α
  | nil => []
  | node a below next => a :: (below.preorder ++ next.preorder)

/-- The number of nodes one above the other. -/
def height : Forest α → Nat
  | nil => 0
  | node _ below next => max (below.height + 1) next.height

/-- Every node has its children below it. -/
def Grown (children : α → List α) : Forest α → Prop
  | nil => True
  | node a below next => below.roots = children a ∧ Grown children below ∧ Grown children next

end Forest

variable {t : Forest α} {a b x y : α} {l : List α} {m n : Nat}

theorem Forest.isNil_iff : t.isNil ↔ t.roots = [] := by
  cases t <;> simp [isNil, roots]

/-! ## Steps -/

theorem Under.trans (h : Under children a m x) (h' : Under children x n y) :
    Under children a (m + n) y := by
  induction h' with
  | refl => exact h
  | step h' hy ih => exact .step ih hy

/-- The first step. -/
theorem Under.head (hb : b ∈ children a) (h : Under children b n x) :
    Under children a (n + 1) x :=
  Nat.add_comm 1 n ▸ (Under.step .refl hb).trans h

theorem Under.cases_head (h : Under children a n x) :
    x = a ∨ ∃ b ∈ children a, ∃ m, Under children b m x := by
  induction h with
  | refl => exact .inl rfl
  | step h hy ih =>
      rcases ih with rfl | ⟨b, hb, m, hm⟩
      · exact .inr ⟨_, hy, 0, .refl⟩
      · exact .inr ⟨b, hb, m + 1, .step hm hy⟩

theorem reached_of_mem (h : x ∈ l) : Reached children l x := ⟨x, h, 0, .refl⟩

theorem Reached.step (h : Reached children l x) (hy : y ∈ children x) : Reached children l y := by
  obtain ⟨r, hr, n, hn⟩ := h
  exact ⟨r, hr, n + 1, hn.step hy⟩

theorem Reached.under (h : Reached children l x) (hy : Under children x n y) :
    Reached children l y := by
  obtain ⟨r, hr, m, hm⟩ := h
  exact ⟨r, hr, m + n, hm.trans hy⟩

namespace Forest

/-! ## The nodes -/

theorem roots_subset_preorder (t : Forest α) : t.roots ⊆ t.preorder := by
  induction t with
  | nil => exact List.Subset.refl []
  | node a below next _ ih =>
      refine List.cons_subset.mpr ⟨List.mem_cons_self, fun x hx ↦ ?_⟩
      exact List.mem_cons_of_mem a (List.mem_append_right _ (ih hx))

/-- **The nodes are what can be reached from the roots.** -/
theorem mem_preorder_iff (h : t.Grown children) :
    x ∈ t.preorder ↔ Reached children t.roots x := by
  induction t with
  | nil => simp [preorder, roots, Reached]
  | node a below next ih ih' =>
      obtain ⟨hbelow, hgrown, hnext⟩ := h
      rw [preorder, List.mem_cons, List.mem_append, ih hgrown, ih' hnext, hbelow]
      constructor
      · rintro (rfl | ⟨r, hr, n, hn⟩ | ⟨r, hr, n, hn⟩)
        · exact reached_of_mem List.mem_cons_self
        · exact ⟨a, List.mem_cons_self, n + 1, hn.head hr⟩
        · exact ⟨r, List.mem_cons_of_mem a hr, n, hn⟩
      · rintro ⟨r, hr, n, hn⟩
        rcases List.mem_cons.mp hr with rfl | hr
        · rcases hn.cases_head with rfl | ⟨b, hb, m, hm⟩
          · exact .inl rfl
          · exact .inr (.inl ⟨b, hb, m, hm⟩)
        · exact .inr (.inr ⟨r, hr, n, hn⟩)

/-! ## Their order -/

theorem sublist_below (a : α) {below next : Forest α} (h : l.Sublist below.preorder) :
    l.Sublist (node a below next).preorder :=
  (h.trans (List.sublist_append_left _ _)).cons a

theorem sublist_next (a : α) {below next : Forest α} (h : l.Sublist next.preorder) :
    l.Sublist (node a below next).preorder :=
  (h.trans (List.sublist_append_right _ _)).cons a

/-- **A node is before its children.** -/
theorem sublist_of_child (h : t.Grown children) (ha : a ∈ t.preorder) (hb : b ∈ children a) :
    [a, b].Sublist t.preorder := by
  induction t with
  | nil => cases ha
  | node a' below next ih ih' =>
      obtain ⟨hbelow, hgrown, hnext⟩ := h
      rcases List.mem_cons.mp ha with rfl | ha
      · have hmem : b ∈ below.preorder := roots_subset_preorder below (hbelow ▸ hb)
        exact (List.singleton_sublist.mpr (List.mem_append_left _ hmem)).cons_cons a
      rcases List.mem_append.mp ha with ha | ha
      · exact sublist_below a' (ih hgrown ha)
      · exact sublist_next a' (ih' hnext ha)

/-- What is below a root is before the next one. -/
theorem sublist_of_roots (h : t.Grown children) (hab : [a, b].Sublist t.roots)
    (hx : Under children a n x) : [x, b].Sublist t.preorder := by
  induction t with
  | nil => cases hab
  | node a' below next _ ih =>
      obtain ⟨hbelow, hgrown, hnext⟩ := h
      cases hab with
      | cons _ hab => exact sublist_next a' (ih hnext hab)
      | cons_cons _ hb =>
          have hb : b ∈ next.preorder :=
            roots_subset_preorder next (List.singleton_sublist.mp hb)
          have hx : x ∈ a :: below.preorder := by
            rcases hx.cases_head with rfl | ⟨c, hc, m, hm⟩
            · exact List.mem_cons_self
            · refine List.mem_cons_of_mem a ((mem_preorder_iff hgrown).mpr ⟨c, ?_, m, hm⟩)
              exact hbelow ▸ hc
          exact (List.singleton_sublist.mpr hx).append (List.singleton_sublist.mpr hb)

/-- **What is below a node is before its next sibling.** -/
theorem sublist_of_sibling {c : α} (h : t.Grown children) (hc : c ∈ t.preorder)
    (hab : [a, b].Sublist (children c)) (hx : Under children a n x) :
    [x, b].Sublist t.preorder := by
  induction t with
  | nil => cases hc
  | node a' below next ih ih' =>
      obtain ⟨hbelow, hgrown, hnext⟩ := h
      rcases List.mem_cons.mp hc with rfl | hc
      · exact sublist_below c (sublist_of_roots hgrown (hbelow ▸ hab) hx)
      rcases List.mem_append.mp hc with hc | hc
      · exact sublist_below a' (ih hgrown hc)
      · exact sublist_next a' (ih' hnext hc)

end Forest

/-! ## Nodes with one parent -/

/-- A graph that is a forest, as far as it can be reached from the roots. -/
structure Rooted (children : α → List α) (roots : List α) : Prop where
  nodup_roots : roots.Nodup
  nodup_children : ∀ a, (children a).Nodup
  parent_unique : ∀ {a b x}, Reached children roots a → Reached children roots b →
    x ∈ children a → x ∈ children b → a = b
  not_child : ∀ {a r}, Reached children roots a → r ∈ roots → r ∉ children a

namespace Rooted

variable {roots : List α} (h : Rooted children roots)

include h

/-- The depth of a node. -/
theorem depth_unique {r r' : α} (hr : r ∈ roots) (hr' : r' ∈ roots) (hx : Under children r m x)
    (hx' : Under children r' n x) : m = n := by
  induction hx generalizing n with
  | refl =>
      cases hx' with
      | refl => rfl
      | step hy hr'' => exact absurd hr'' (h.not_child ⟨r', hr', _, hy⟩ hr)
  | step hy hx ih =>
      cases hx' with
      | refl => exact absurd hx (h.not_child ⟨r, hr, _, hy⟩ hr')
      | step hy' hx' =>
          obtain rfl := h.parent_unique ⟨r, hr, _, hy⟩ ⟨r', hr', _, hy'⟩ hx hx'
          exact congrArg (· + 1) (ih hy')

/-- The node so many steps above another. -/
theorem above_unique (ha : Reached children roots a) (hb : Reached children roots b)
    (hx : Under children a n x) (hx' : Under children b n x) : a = b := by
  induction hx with
  | refl =>
      cases hx'
      rfl
  | step hy hx ih =>
      cases hx' with
      | step hy' hx' =>
          obtain rfl := h.parent_unique (ha.under hy) (hb.under hy') hx hx'
          exact ih hy'

/-- The depth of what is below a node. -/
theorem eq_of_under {c d : Nat} {r r' : α} (hr : r ∈ roots) (hr' : r' ∈ roots)
    (ha : Under children r c a) (hb : Under children r' d b) (hx : Under children a m x)
    (hx' : Under children b n x) : c + m = d + n :=
  h.depth_unique hr hr' (ha.trans hx) (hb.trans hx')

/-- No node comes twice in a part of the forest, whose roots have one depth. -/
theorem nodup_of_depth {t : Forest α} {d : Nat} (ht : t.Grown children)
    (hroots : ∀ a ∈ t.roots, ∃ r ∈ roots, Under children r d a) (hnodup : t.roots.Nodup) :
    t.preorder.Nodup := by
  induction t generalizing d with
  | nil => exact List.nodup_nil
  | node a below next ih ih' =>
      obtain ⟨hbelow, hgrown, hnext⟩ := ht
      obtain ⟨⟨r, hr, ha⟩, hroots⟩ := List.forall_mem_cons.mp hroots
      obtain ⟨hmem, hnodup⟩ := List.nodup_cons.mp hnodup
      have hnodupBelow : below.preorder.Nodup := by
        refine ih (d := d + 1) hgrown ?_ ?_
        · rw [hbelow]
          exact fun b hb ↦ ⟨r, hr, ha.step hb⟩
        · rw [hbelow]
          exact h.nodup_children a
      -- what is below `a` is deeper than it
      have hunder : ∀ x ∈ below.preorder, ∃ n, Under children a (n + 1) x := by
        intro x hx
        obtain ⟨b, hb, n, hn⟩ := (Forest.mem_preorder_iff hgrown).mp hx
        exact ⟨n, hn.head (hbelow ▸ hb)⟩
      have hunderNext : ∀ x ∈ next.preorder, ∃ b ∈ next.roots, ∃ r' ∈ roots,
          Under children r' d b ∧ ∃ n, Under children b n x := by
        intro x hx
        obtain ⟨b, hb, n, hn⟩ := (Forest.mem_preorder_iff hnext).mp hx
        obtain ⟨r', hr', hb'⟩ := hroots b hb
        exact ⟨b, hb, r', hr', hb', n, hn⟩
      refine List.nodup_cons.mpr ⟨fun ha' ↦ ?_, ?_⟩
      · rcases List.mem_append.mp ha' with ha' | ha'
        · obtain ⟨n, hn⟩ := hunder a ha'
          have hdepth := h.eq_of_under hr hr ha ha hn .refl
          omega
        · obtain ⟨b, hb, r', hr', hb', n, hn⟩ := hunderNext a ha'
          have hdepth := h.eq_of_under hr hr' ha hb' .refl hn
          obtain rfl : n = 0 := by omega
          cases hn
          exact hmem hb
      · refine List.nodup_append'.mpr ⟨hnodupBelow, ih' hnext hroots hnodup, fun x hx hx' ↦ ?_⟩
        obtain ⟨m, hm⟩ := hunder x hx
        obtain ⟨b, hb, r', hr', hb', n, hn⟩ := hunderNext x hx'
        have hdepth := h.eq_of_under hr hr' ha hb' hm hn
        obtain rfl : n = m + 1 := by omega
        obtain rfl := h.above_unique ⟨r, hr, d, ha⟩ ⟨r', hr', d, hb'⟩ hm hn
        exact hmem hb

/-- **No node comes twice.** -/
theorem nodup_preorder {t : Forest α} (ht : t.Grown children) (hroots : t.roots = roots) :
    t.preorder.Nodup :=
  h.nodup_of_depth (d := 0) ht (hroots ▸ fun r hr ↦ ⟨r, hr, .refl⟩) (hroots ▸ h.nodup_roots)

/-! ## Finite graphs -/

/-- The nodes on the way to a node are different. -/
theorem exists_path {r : α} (hr : r ∈ roots) (hx : Under children r n x) :
    ∃ path : List α, path.length = n + 1 ∧ path.Nodup ∧
      ∀ y ∈ path, ∃ m ≤ n, Under children r m y := by
  induction hx with
  | refl => exact ⟨[r], rfl, List.nodup_singleton r, by simpa using .refl⟩
  | @step n x y hx hy ih =>
      obtain ⟨path, hlength, hnodup, hpath⟩ := ih
      refine ⟨y :: path, congrArg (· + 1) hlength, List.nodup_cons.mpr ⟨fun hmem ↦ ?_, hnodup⟩, ?_⟩
      · obtain ⟨m, hm, hunder⟩ := hpath y hmem
        have hdepth := h.depth_unique hr hr (hx.step hy) hunder
        omega
      · refine List.forall_mem_cons.mpr ⟨⟨n + 1, Nat.le_refl _, hx.step hy⟩, fun z hz ↦ ?_⟩
        obtain ⟨m, hm, hunder⟩ := hpath z hz
        exact ⟨m, Nat.le_succ_of_le hm, hunder⟩

/-- The depth is less than the number of nodes. -/
theorem depth_lt {all : List α} (hall : ∀ x, Reached children roots x → x ∈ all) {r : α}
    (hr : r ∈ roots) (hx : Under children r n x) : n < all.length := by
  obtain ⟨path, hlength, hnodup, hpath⟩ := h.exists_path hr hx
  have hsubset : path ⊆ all := by
    intro y hy
    obtain ⟨m, -, hunder⟩ := hpath y hy
    exact hall y ⟨r, hr, m, hunder⟩
  have hle := (List.subperm_of_subset hnodup hsubset).length_le
  omega

end Rooted

namespace Forest

/-- Where depths have a bound, there is a forest. -/
theorem exists_grown_of_bound {bound : Nat} {l : List α}
    (h : ∀ r ∈ l, ∀ n x, Under children r n x → n < bound) :
    ∃ t : Forest α, t.Grown children ∧ t.roots = l := by
  induction bound generalizing l with
  | zero =>
      cases l with
      | nil => exact ⟨nil, trivial, rfl⟩
      | cons r l => exact absurd (h r List.mem_cons_self 0 r .refl) (Nat.not_lt_zero 0)
  | succ bound ih =>
      induction l with
      | nil => exact ⟨nil, trivial, rfl⟩
      | cons r l ihl =>
          obtain ⟨hr, hl⟩ := List.forall_mem_cons.mp h
          obtain ⟨below, hgrown, hbelow⟩ := ih fun b hb n x hx ↦
            Nat.lt_of_succ_lt_succ (hr (n + 1) x (hx.head hb))
          obtain ⟨next, hnext, rfl⟩ := ihl hl
          exact ⟨node r below next, ⟨hbelow, hgrown, hnext⟩, rfl⟩

end Forest

/-- **A finite graph has a forest**, if it is rooted. -/
theorem Rooted.exists_grown {roots all : List α} (h : Rooted children roots)
    (hall : ∀ x, Reached children roots x → x ∈ all) :
    ∃ t : Forest α, t.Grown children ∧ t.roots = roots :=
  Forest.exists_grown_of_bound fun _ hr _ _ hx ↦ h.depth_lt hall hr hx

end SysProg.Lib
