import SysProg.ProcTree.Show

/-!
# The layout of the process tree

The globals `f` and `l` of `12_2` are to say whether a process is the first child of its parent,
and whether it has children.  `l` is the length of the last name, and behind every call it is 0
again: a call that finds no child prints the newline if it is not 0.  For an empty name it does
not, and `f` is not set either.

* `layout` is what the tree is to look like.
* `walk_eq_layout`: the flags behind a part of the tree, if every leaf of it has a name.
* `newlines_walk` counts what is printed behind leaves, with and without one.
* `lays_iff`: the layout is right, if and only if no process without children has an empty name.
-/

namespace SysProg.ProcTree

open SysProg.Lib

/-! ## The layout -/

/-- What the trees are to look like: only the first one goes on with the line of its parent, and a
newline ends the line behind a process that has no child. -/
def layout : Forest Process → Bool → Nat → List Event
  | .nil, _, _ => []
  | .node p below next, first, cur_dep =>
      .process (if first then .dashes else .bar) p cur_dep ::
        ((if below.isNil then [.newline] else layout below true (cur_dep + 1)) ++
          layout next false cur_dep)

/-- The processes without a child. -/
def leaves : Forest Process → List Process
  | .nil => []
  | .node p below next => (if below.isNil then [p] else leaves below) ++ leaves next

/-- The processes below init are the nodes of the forest. -/
structure IsTree (root : List Process) (t : Forest Process) : Prop where
  grown : t.Grown (children root)
  roots_eq : t.roots = initChildren root

/-- `dfs_show(root, 1, 0)` prints the tree as it is to look like. -/
def Lays (root : List Process) (t : Forest Process) : Prop :=
  ∃ enough, ∀ fuel ≥ enough,
    (dfs_show root fuel 1 0 ⟨false, 0⟩).map Prod.fst = some (layout t true 0)

variable {root : List Process} {t below next : Forest Process} {p : Process} {cur_dep : Nat}
  {g : Flags}

/-! ## Leaves with names -/

theorem finish_of_zero {out : List Event × Flags} (h : out.2.l = 0) : finish out = out := if_pos h

/-- **The flags**: behind a forest with names `f` is set, and `l` is not. -/
theorem walk_eq_layout (hnames : ∀ p ∈ leaves t, p.name ≠ []) (cur_dep : Nat) (g : Flags) :
    walk t cur_dep g =
      (layout t (! g.f) cur_dep, if t.isNil then g else ⟨true, 0⟩) := by
  induction t generalizing cur_dep g with
  | nil => rfl
  | node p below next ih ih' =>
      obtain ⟨hbelow, hnext⟩ := List.forall_mem_append.mp hnames
      have hform : g.form = if (! g.f) then .dashes else .bar := by
        rw [Flags.form]
        cases g.f <;> rfl
      have hsub : finish (walk below (cur_dep + 1) ⟨false, p.name.length⟩) =
          (if below.isNil then [.newline] else layout below true (cur_dep + 1), ⟨true, 0⟩) := by
        cases below with
        | nil =>
            have hname : p.name.length ≠ 0 := by simpa using hbelow p List.mem_cons_self
            exact if_neg hname
        | node q b n => exact (congrArg finish (ih hbelow _ _)).trans (finish_of_zero rfl)
      rw [walk, hsub, layout, ← hform]
      change (_ :: (_ ++ (walk next cur_dep ⟨true, 0⟩).1), (walk next cur_dep ⟨true, 0⟩).2) = _
      rw [ih' hnext]
      cases next <;> rfl

/-! ## Counting newlines -/

/-- How many there are. -/
def newlines (events : List Event) : Nat := events.countP (· = .newline)

@[simp] theorem newlines_nil : newlines [] = 0 := rfl

@[simp] theorem newlines_append (events events' : List Event) :
    newlines (events ++ events') = newlines events + newlines events' := List.countP_append

@[simp] theorem newlines_process (form : Form) (p : Process) (cur_dep : Nat)
    (events : List Event) : newlines (.process form p cur_dep :: events) = newlines events :=
  List.countP_cons_of_neg (by simp)

@[simp] theorem newlines_newline : newlines [.newline] = 1 := rfl

/-- There is one for every leaf in the layout. -/
theorem newlines_layout (t : Forest Process) (first : Bool) (cur_dep : Nat) :
    newlines (layout t first cur_dep) = (leaves t).length := by
  induction t generalizing first cur_dep with
  | nil => rfl
  | node p below next ih ih' =>
      rw [layout, leaves, newlines_process, newlines_append, ih', List.length_append]
      cases below with
      | nil => rfl
      | node q b n => exact congrArg (· + _) (ih true (cur_dep + 1))

/-- A process that has a name. -/
def Process.hasName (p : Process) : Bool := ! p.name.isEmpty

/-- One is printed for every leaf that has a name, and `l` is 0 behind every call. -/
theorem newlines_walk (t : Forest Process) (cur_dep : Nat) (g : Flags) :
    newlines (walk t cur_dep g).1 = (leaves t).countP Process.hasName ∧
      (walk t cur_dep g).2.l = if t.isNil then g.l else 0 := by
  induction t generalizing cur_dep g with
  | nil => exact ⟨rfl, rfl⟩
  | node p below next ih ih' =>
      have hsub : newlines (finish (walk below (cur_dep + 1) ⟨false, p.name.length⟩)).1 =
            (if below.isNil then [p] else leaves below).countP Process.hasName ∧
          (finish (walk below (cur_dep + 1) ⟨false, p.name.length⟩)).2.l = 0 := by
        cases below with
        | nil =>
            rw [walk, finish]
            cases hname : p.name with
            | nil => simp [Forest.isNil, Process.hasName, hname]
            | cons c name => simp [Forest.isNil, Process.hasName, hname]
        | node q b n =>
            obtain ⟨hnewlines, hl⟩ := ih (cur_dep + 1) ⟨false, p.name.length⟩
            rw [finish_of_zero hl]
            exact ⟨hnewlines, hl⟩
      obtain ⟨hnewlines, hl⟩ :=
        ih' cur_dep (finish (walk below (cur_dep + 1) ⟨false, p.name.length⟩)).2
      rw [walk, leaves, List.countP_append, ← hsub.1, ← hnewlines]
      refine ⟨(newlines_process _ _ _ _).trans (newlines_append _ _), ?_⟩
      change (walk next cur_dep _).2.l = 0
      rw [hl, hsub.2, ite_self]

/-! ## The leaves -/

theorem mem_leaves_iff (h : t.Grown (children root)) :
    p ∈ leaves t ↔ p ∈ t.preorder ∧ children root p = [] := by
  induction t with
  | nil => simp [leaves, Forest.preorder]
  | node q below next ih ih' =>
      obtain ⟨hbelow, hgrown, hnext⟩ := h
      have hleaf : below.isNil ↔ children root q = [] := by rw [Forest.isNil_iff, hbelow]
      have hsub : p ∈ (if below.isNil then [q] else leaves below) ↔
          (p = q ∨ p ∈ below.preorder) ∧ children root p = [] := by
        by_cases hnil : below.isNil
        · have hpreorder : below.preorder = [] := by
            cases below with
            | nil => rfl
            | node => cases hnil
          rw [if_pos hnil, List.mem_singleton, hpreorder]
          constructor
          · rintro rfl
            exact ⟨.inl rfl, hleaf.mp hnil⟩
          · rintro ⟨hp, -⟩
            exact hp.resolve_right List.not_mem_nil
        · rw [if_neg hnil, ih hgrown]
          constructor
          · rintro ⟨hp, hempty⟩
            exact ⟨.inr hp, hempty⟩
          · rintro ⟨rfl | hp, hempty⟩
            · exact absurd (hleaf.mpr hempty) hnil
            · exact ⟨hp, hempty⟩
      rw [leaves, Forest.preorder, List.mem_append, List.mem_cons, List.mem_append, hsub,
        ih' hnext, ← or_and_right, or_assoc]

/-- The leaves are the processes below init that are nobody's parent. -/
theorem forall_leaves_iff (ht : IsTree root t) (P : Process → Prop) : (∀ p ∈ leaves t, P p) ↔
    ∀ p ∈ root, ReachesInit root p → (∀ q ∈ root, q.ppid ≠ p.pid) → P p := by
  have hleaf : ∀ p, p ∈ leaves t ↔
      (p ∈ root ∧ ReachesInit root p) ∧ ∀ q ∈ root, q.ppid ≠ p.pid := by
    intro p
    rw [mem_leaves_iff ht.grown, Forest.mem_preorder_iff ht.grown, ht.roots_eq, reached_iff,
      children, List.filter_eq_nil_iff]
    simp only [decide_eq_true_eq]
  constructor
  · intro h p hp hreaches hchild
    exact h p ((hleaf p).mpr ⟨⟨hp, hreaches⟩, hchild⟩)
  · intro h p hp
    obtain ⟨⟨hmem, hreaches⟩, hchild⟩ := (hleaf p).mp hp
    exact h p hmem hreaches hchild

/-- What is printed is the walk, with no newline of its own. -/
theorem lays_iff_walk (ht : IsTree root t) :
    Lays root t ↔ (walk t 0 ⟨false, 0⟩).1 = layout t true 0 := by
  have hl : (walk t 0 ⟨false, 0⟩).2.l = 0 := by rw [(newlines_walk t 0 _).2, ite_self]
  have hshow : ∀ fuel > t.height, (dfs_show root fuel 1 0 ⟨false, 0⟩).map Prod.fst =
      some (walk t 0 ⟨false, 0⟩).1 := by
    intro fuel hfuel
    rw [dfs_show_eq ht.grown ht.roots_eq hfuel, finish_of_zero hl]
    rfl
  constructor
  · rintro ⟨enough, henough⟩
    have hprinted := henough (max enough (t.height + 1)) (Nat.le_max_left _ _)
    rw [hshow _ (Nat.le_max_right _ _)] at hprinted
    exact Option.some.inj hprinted
  · intro h
    exact ⟨t.height + 1, fun fuel hfuel ↦ (hshow fuel hfuel).trans (congrArg some h)⟩

/-- **The tree is laid out** as it is to look like, if and only if no process without children has
an empty name. -/
theorem lays_iff (root : List Process) (t : Forest Process) (ht : IsTree root t) :
    Lays root t ↔ ∀ p ∈ root, ReachesInit root p → (∀ q ∈ root, q.ppid ≠ p.pid) →
      p.name ≠ [] := by
  rw [lays_iff_walk ht, ← forall_leaves_iff ht]
  constructor
  · intro h p hp
    have hcount := (newlines_walk t 0 ⟨false, 0⟩).1
    rw [h, newlines_layout] at hcount
    have hname := List.countP_eq_length.mp hcount.symm p hp
    simpa [Process.hasName] using hname
  · intro h
    rw [walk_eq_layout h]
    rfl

/-- Two processes below init; the first one has no name. -/
def noName : List Process := [⟨1, 0, [97]⟩, ⟨2, 1, []⟩, ⟨3, 1, [98]⟩]

/-- Their forest. -/
def noNameTree : Forest Process := .node ⟨2, 1, []⟩ .nil (.node ⟨3, 1, [98]⟩ .nil .nil)

theorem isTree_noName : IsTree noName noNameTree := by
  refine ⟨⟨by decide, trivial, by decide, trivial, trivial⟩, by decide⟩

theorem lays_noName : Lays noName noNameTree ↔ ∀ p ∈ noName, ReachesInit noName p →
    (∀ q ∈ noName, q.ppid ≠ p.pid) → p.name ≠ [] :=
  lays_iff noName noNameTree isTree_noName

/-- They are both in the first line. -/
theorem not_lays_noName : ¬ ∀ (root : List Process) (t : Forest Process), IsTree root t →
    Lays root t := by
  intro h
  have hwalk := (lays_iff_walk isTree_noName).mp (h noName noNameTree isTree_noName)
  exact absurd hwalk (by decide)

end SysProg.ProcTree
