import Mathlib.Data.List.Nodup
import SysProg.Lib.Forest

/-!
# The tree of the processes

`12_2` makes a list of the processes that are in `/proc`, and prints them as a tree.  `dfs_show`
goes through the whole list for every process, and calls itself for the children it meets.  There
is no mark on a process that has been printed: parents in a circle would be printed for ever, if
they could be reached.

* `dfs_show` is the function, with the number of calls one in the other that it may make.
* `walk` is what it prints for a forest; `dfs_show_eq` says that this is what it does.
* `rooted_children`: from pid 1 no circle can be reached, because there is no parent with pid 0.
* `dfs_show_prints`: what is printed, and in which order.
-/

namespace SysProg.ProcTree

open SysProg.Lib

/-! ## The list -/

/-- `se`, without the pointer to the next one. -/
structure Process where
  pid : Int
  ppid : Int
  name : List UInt8
deriving DecidableEq

/-- A process is inserted at the end of the list. -/
def insert (root : List Process) (ppid pid : Int) (name : List UInt8) : List Process :=
  root ++ [⟨pid, ppid, name⟩]

/-! ## What is printed -/

/-- What is in front of a name: `" ———— "`, or `"  |—— "`, which begins a line. -/
inductive Form where
  | dashes
  | bar
deriving DecidableEq

/-- What is printed at a time. -/
inductive Event where
  | process (form : Form) (p : Process) (cur_dep : Nat)
  | newline
deriving DecidableEq

def spaces (n : Nat) : List UInt8 := List.replicate n 32

/-- The loop over `j`, for the beginning of a line. -/
def padding (cur_dep : Nat) : List UInt8 :=
  let n := (cur_dep + 1) * (6 + 6 + 7 + 3) - 6
  (if n ≤ 16 then spaces n else spaces 16 ++ [32, 32, 124, 32, 32, 32] ++ spaces (n - 23)) ++
    if cur_dep = 1 then spaces 8 else []

/-- `—` -/
def dash : List UInt8 := [226, 128, 148]

/-- `"%s, PID: %d"` -/
def Process.text (p : Process) : List UInt8 :=
  p.name ++ [44, 32, 80, 73, 68, 58, 32] ++ (toString p.pid).toList.map (UInt8.ofNat ·.toNat)

/-- The bytes of an event. -/
def Event.text : Event → List UInt8
  | .process .dashes p _ => [32] ++ dash ++ dash ++ dash ++ dash ++ [32] ++ p.text
  | .process .bar p cur_dep => padding cur_dep ++ [32, 32, 124] ++ dash ++ dash ++ [32] ++ p.text
  | .newline => [10]

/-- The processes that are printed. -/
def processes (events : List Event) : List Process :=
  events.filterMap fun
    | .process _ p _ => some p
    | .newline => none

/-- The globals: `f`, which is 0 or 1, and `l`. -/
structure Flags where
  f : Bool
  l : Nat
deriving DecidableEq

def Flags.form (g : Flags) : Form := if g.f then .bar else .dashes

/-- The loop over the list; `show_` is the call of the function itself. -/
def loop (show_ : Int → Nat → Flags → Option (List Event × Flags)) (ppi : Int) (cur_dep : Nat) :
    List Process → Flags → Option (List Event × Flags)
  | [], g => some ([], g)
  | temp :: rest, g =>
      if temp.ppid = ppi then
        (show_ temp.pid (cur_dep + 1) ⟨false, temp.name.length⟩).bind fun (below, g') ↦
          (loop show_ ppi cur_dep rest g').map fun (next, g'') ↦
            (.process g.form temp cur_dep :: (below ++ next), g'')
      else loop show_ ppi cur_dep rest g

/-- What comes after the loop. -/
def finish (out : List Event × Flags) : List Event × Flags :=
  if out.2.l = 0 then out else (out.1 ++ [.newline], ⟨true, 0⟩)

/-- `dfs_show(root, ppi, cur_dep)`, if no more than `fuel` calls are one in the other. -/
def dfs_show (root : List Process) : Nat → Int → Nat → Flags → Option (List Event × Flags)
  | 0, _, _, _ => none
  | fuel + 1, ppi, cur_dep, g =>
      (loop (dfs_show root fuel) ppi cur_dep root g).map finish

/-! ## A walk over a forest -/

/-- The children of a process, in the order of the list. -/
def children (root : List Process) (p : Process) : List Process :=
  root.filter (·.ppid = p.pid)

/-- Those of `init`. -/
def initChildren (root : List Process) : List Process := root.filter (·.ppid = 1)

/-- What the loop prints for the trees of a forest. -/
def walk : Forest Process → Nat → Flags → List Event × Flags
  | .nil, _, g => ([], g)
  | .node p below next, cur_dep, g =>
      let (sub, g') := finish (walk below (cur_dep + 1) ⟨false, p.name.length⟩)
      let (out, g'') := walk next cur_dep g'
      (.process g.form p cur_dep :: (sub ++ out), g'')

variable {root : List Process} {t : Forest Process} {ppi : Int} {cur_dep fuel : Nat} {g : Flags}

/-- Only the children count. -/
theorem loop_filter (show_ : Int → Nat → Flags → Option (List Event × Flags))
    (rest : List Process) (g : Flags) :
    loop show_ ppi cur_dep (rest.filter (·.ppid = ppi)) g = loop show_ ppi cur_dep rest g := by
  induction rest generalizing g with
  | nil => rfl
  | cons temp rest ih =>
      rw [loop]
      by_cases htemp : temp.ppid = ppi
      · rw [List.filter_cons_of_pos (by simpa using htemp), loop, if_pos htemp, if_pos htemp]
        simp only [ih]
      · rw [List.filter_cons_of_neg (by simpa using htemp), if_neg htemp, ih]

/-- The loop over the children is the walk, if there is fuel for its height. -/
theorem loop_roots (h : t.Grown (children root)) (hroots : ∀ p ∈ t.roots, p.ppid = ppi)
    (hfuel : t.height ≤ fuel) (cur_dep : Nat) (g : Flags) :
    loop (dfs_show root fuel) ppi cur_dep t.roots g = some (walk t cur_dep g) := by
  induction t generalizing ppi cur_dep fuel g with
  | nil => rfl
  | node p below next ih ih' =>
      obtain ⟨hbelow, hgrown, hnext⟩ := h
      obtain ⟨hp, hroots⟩ := List.forall_mem_cons.mp hroots
      obtain ⟨hheight, hheight'⟩ := Nat.max_le.mp hfuel
      obtain ⟨fuel, rfl⟩ : ∃ fuel', fuel = fuel' + 1 :=
        ⟨fuel - 1, (Nat.sub_add_cancel (Nat.le_of_add_left_le hheight)).symm⟩
      have hsub : ∀ q ∈ below.roots, q.ppid = p.pid := by
        intro q hq
        rw [hbelow] at hq
        simpa using (List.mem_filter.mp hq).2
      have hcall : dfs_show root (fuel + 1) p.pid (cur_dep + 1) ⟨false, p.name.length⟩ =
          some (finish (walk below (cur_dep + 1) ⟨false, p.name.length⟩)) := by
        have hloop := ih hgrown hsub (Nat.le_of_succ_le_succ hheight) (cur_dep + 1)
          ⟨false, p.name.length⟩
        rw [hbelow, children, loop_filter] at hloop
        rw [dfs_show, hloop]
        rfl
      rw [Forest.roots, loop, if_pos hp, hcall, Option.bind_some, walk]
      exact congrArg (Option.map _) (ih' hnext hroots hheight' cur_dep _)

/-- **What `dfs_show` does**: it walks over the forest. -/
theorem dfs_show_eq (h : t.Grown (children root)) (hroots : t.roots = initChildren root)
    (hfuel : t.height < fuel) (g : Flags) :
    dfs_show root fuel 1 0 g = some (finish (walk t 0 g)) := by
  obtain ⟨fuel, rfl⟩ : ∃ fuel', fuel = fuel' + 1 :=
    ⟨fuel - 1, (Nat.sub_add_cancel (Nat.one_le_of_lt hfuel)).symm⟩
  have hone : ∀ p ∈ t.roots, p.ppid = 1 := by
    intro p hp
    rw [hroots] at hp
    simpa using (List.mem_filter.mp hp).2
  have hloop := loop_roots h hone (Nat.le_of_lt_succ hfuel) 0 g
  rw [hroots, initChildren, loop_filter] at hloop
  rw [dfs_show, hloop]
  rfl

/-! ## The processes below init -/

/-- The chain of its parents reaches pid 1. -/
inductive ReachesInit (root : List Process) : Process → Prop
  | child {p : Process} (h : p.ppid = 1) : ReachesInit root p
  | step {p q : Process} (hq : q ∈ root) (hp : p.ppid = q.pid) (h : ReachesInit root q) :
      ReachesInit root p

/-- `q` is `p`, or is below it. -/
def Descends (root : List Process) (p q : Process) : Prop := ∃ n, Under (children root) p n q

/-- **The processes are printed in order**: those whose parents lead to pid 1, each once, after its
parent, and with all that is below it before its next sibling. -/
structure InOrder (root shown : List Process) : Prop where
  nodup : shown.Nodup
  mem_iff : ∀ p, p ∈ shown ↔ p ∈ root ∧ ReachesInit root p
  parent_first : ∀ p ∈ shown, ∀ q ∈ root, q.ppid = p.pid → [p, q].Sublist shown
  sibling_after : ∀ p q, [p, q].Sublist root → p.ppid = q.ppid → p ∈ shown →
    ∀ r, Descends root p r → [r, q].Sublist shown

variable {p q : Process}

theorem mem_children : q ∈ children root p ↔ q ∈ root ∧ q.ppid = p.pid := by
  simp [children]

theorem mem_initChildren : p ∈ initChildren root ↔ p ∈ root ∧ p.ppid = 1 := by
  simp [initChildren]

theorem reached_iff : Reached (children root) (initChildren root) p ↔
    p ∈ root ∧ ReachesInit root p := by
  constructor
  · rintro ⟨r, hr, n, hn⟩
    induction hn with
    | refl =>
        obtain ⟨hmem, hone⟩ := mem_initChildren.mp hr
        exact ⟨hmem, .child hone⟩
    | step _ hy ih =>
        obtain ⟨hmem, hparent⟩ := mem_children.mp hy
        exact ⟨hmem, .step ih.1 hparent ih.2⟩
  · rintro ⟨hmem, h⟩
    induction h with
    | child h => exact reached_of_mem (mem_initChildren.mpr ⟨hmem, h⟩)
    | step hq hp _ ih => exact (ih hq).step (mem_children.mpr ⟨hmem, hp⟩)

/-- **No circle can be reached** if pids are unique and not 0, and init has no parent. -/
theorem rooted_children (hpids : (root.map Process.pid).Nodup) (hzero : ∀ p ∈ root, p.pid ≠ 0)
    (hinit : ∀ p ∈ root, p.pid = 1 → p.ppid = 0) :
    Rooted (children root) (initChildren root) := by
  have hnodup : root.Nodup := hpids.of_map Process.pid
  refine ⟨hnodup.filter _, fun p ↦ hnodup.filter _, fun ha hb hx hx' ↦ ?_, fun ha hr hchild ↦ ?_⟩
  · have hpid := (mem_children.mp hx).2.symm.trans (mem_children.mp hx').2
    exact List.inj_on_of_nodup_map hpids (reached_iff.mp ha).1 (reached_iff.mp hb).1 hpid
  · obtain ⟨hmem, hreaches⟩ := reached_iff.mp ha
    -- the parent is init itself, and so no chain leads from it to init
    have hpid := (mem_children.mp hchild).2.symm.trans (mem_initChildren.mp hr).2
    have hppid := hinit _ hmem hpid
    cases hreaches with
    | child hone => exact absurd (hppid.symm.trans hone) (by decide)
    | step hq hp _ => exact hzero _ hq (hp.symm.trans hppid)

theorem processes_append (events events' : List Event) :
    processes (events ++ events') = processes events ++ processes events' :=
  List.filterMap_append

theorem processes_finish (out : List Event × Flags) :
    processes (finish out).1 = processes out.1 := by
  rw [finish]
  split
  · rfl
  · exact (processes_append _ _).trans (List.append_nil _)

/-- A walk shows the nodes of the forest, in preorder. -/
theorem processes_walk (t : Forest Process) (cur_dep : Nat) (g : Flags) :
    processes (walk t cur_dep g).1 = t.preorder := by
  induction t generalizing cur_dep g with
  | nil => rfl
  | node p below next ih ih' =>
      rw [walk, Forest.preorder]
      change p :: processes ((finish _).1 ++ (walk next cur_dep _).1) = _
      rw [processes_append, processes_finish, ih, ih']

/-- The nodes of the forest are in order. -/
theorem inOrder_preorder (hrooted : Rooted (children root) (initChildren root))
    (h : t.Grown (children root)) (hroots : t.roots = initChildren root) :
    InOrder root t.preorder where
  nodup := hrooted.nodup_preorder h hroots
  mem_iff := fun p ↦ by rw [Forest.mem_preorder_iff h, hroots, reached_iff]
  parent_first := fun p hp q hq hparent ↦
    Forest.sublist_of_child h hp (mem_children.mpr ⟨hq, hparent⟩)
  sibling_after := by
    rintro p q hpq hppid hp r ⟨n, hr⟩
    have hsiblings : ∀ pid, p.ppid = pid → [p, q].Sublist (root.filter (·.ppid = pid)) := by
      rintro pid rfl
      simpa [hppid] using hpq.filter (·.ppid = p.ppid)
    obtain ⟨hmem, hreaches⟩ := reached_iff.mp (hroots ▸ (Forest.mem_preorder_iff h).mp hp)
    cases hreaches with
    | child hone => exact Forest.sublist_of_roots h (hroots ▸ hsiblings 1 hone) hr
    | @step _ parent hparent hpid hreaches =>
        have hparent' : parent ∈ t.preorder := by
          rw [Forest.mem_preorder_iff h, hroots]
          exact reached_iff.mpr ⟨hparent, hreaches⟩
        exact Forest.sublist_of_sibling h hparent' (hsiblings parent.pid hpid) hr

/-- **`dfs_show` terminates**, and prints in order the processes whose parents lead to pid 1. -/
theorem dfs_show_prints (root : List Process) (hpids : (root.map Process.pid).Nodup)
    (hzero : ∀ p ∈ root, p.pid ≠ 0) (hinit : ∀ p ∈ root, p.pid = 1 → p.ppid = 0) (g : Flags) :
    ∃ enough events g', (∀ fuel ≥ enough, dfs_show root fuel 1 0 g = some (events, g')) ∧
      InOrder root (processes events) := by
  have hrooted := rooted_children hpids hzero hinit
  obtain ⟨t, hgrown, hroots⟩ := hrooted.exists_grown fun p hp ↦ (reached_iff.mp hp).1
  refine ⟨t.height + 1, (finish (walk t 0 g)).1, (finish (walk t 0 g)).2, ?_, ?_⟩
  · exact fun fuel hfuel ↦ dfs_show_eq hgrown hroots hfuel g
  · rw [processes_finish, processes_walk]
    exact inOrder_preorder hrooted hgrown hroots

/-- Two children of `init`, of which the second has a child with two children.  Two processes
have each other for parents. -/
def someProcesses : List Process :=
  [⟨1, 0, [97]⟩, ⟨2, 1, [98]⟩, ⟨8, 9, [99]⟩, ⟨3, 1, [101]⟩, ⟨4, 3, [102]⟩, ⟨9, 8, [100]⟩,
    ⟨5, 4, [103]⟩, ⟨6, 4, [104]⟩]

theorem dfs_show_prints_someProcesses : ∃ enough events g',
    (∀ fuel ≥ enough, dfs_show someProcesses fuel 1 0 ⟨false, 0⟩ = some (events, g')) ∧
      InOrder someProcesses (processes events) :=
  dfs_show_prints someProcesses (by decide) (by decide) (by decide) ⟨false, 0⟩

end SysProg.ProcTree
