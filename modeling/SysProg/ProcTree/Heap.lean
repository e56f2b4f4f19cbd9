import SysProg.Lib.LinkedList
import SysProg.ProcTree.Main

/-!
# The list of `12_2` in memory

`insert` asks for memory for a node and hangs it on the end of the list, `dfs_show` goes along the
pointers, and `free_set` gives the nodes back.  The addresses are those that `malloc` returns.

* `insert`, `loop`, `dfs_show`, `free_set` and `main` are the functions with pointers; `steps`
  bounds the turns of their loops over the list.
* `Represents`: the nodes from `root` on are the list.
* `main_refines`: the program with pointers does what it does with lists, reads and frees no node
  that is not allocated, and has freed all of them when it ends with status 0.
-/

namespace SysProg.ProcTree.Heap

open SysProg.Lib

/-! ## The functions -/

/-- `insert(root, ppid, pid, name)`, when `malloc` returns `newnode`. -/
def insert (steps : Nat) (m : Nodes Process) (root : Option Nat) (newnode : Nat) (ppid pid : Int)
    (name : List UInt8) : Option (Nodes Process × Option Nat) :=
  let m := Function.update m newnode (some ⟨⟨pid, ppid, name⟩, none⟩)
  match root with
  | none => some (m, some newnode)
  | some root =>
      (last m steps root).bind fun temp ↦ (link m temp newnode).map fun m ↦ (m, some root)

/-- The loop of `dfs_show`, from `temp` on; `show_` is the call of the function itself. -/
def loop (m : Nodes Process) (show_ : Int → Nat → Flags → Option (List Event × Flags)) (ppi : Int)
    (cur_dep : Nat) : Nat → Option Nat → Flags → Option (List Event × Flags)
  | _, none, g => some ([], g)
  | 0, some _, _ => none
  | steps + 1, some temp, g =>
      (m temp).bind fun node ↦
        if node.val.ppid = ppi then
          (show_ node.val.pid (cur_dep + 1) ⟨false, node.val.name.length⟩).bind fun (below, g') ↦
            (loop m show_ ppi cur_dep steps node.next g').map fun (next, g'') ↦
              (.process g.form node.val cur_dep :: (below ++ next), g'')
        else loop m show_ ppi cur_dep steps node.next g

/-- `dfs_show(root, ppi, cur_dep)`, if no more than `fuel` calls are one in the other. -/
def dfs_show (steps : Nat) (m : Nodes Process) (root : Option Nat) :
    Nat → Int → Nat → Flags → Option (List Event × Flags)
  | 0, _, _, _ => none
  | fuel + 1, ppi, cur_dep, g =>
      (loop m (dfs_show steps m root fuel) ppi cur_dep steps root g).map finish

/-- `free_set(root)` -/
def free_set (steps : Nat) (m : Nodes Process) (root : Option Nat) : Option (Nodes Process) :=
  freeAll m steps root

/-- What the loop over the directory has come to. -/
structure Scan where
  stdout : List UInt8
  memory : Nodes Process
  root : Option Nat
  /-- How often `malloc` has been called. -/
  mallocs : Nat
  errno : Int

/-- An entry of the directory. -/
def Scan.next (malloc : Nat → Nat) (steps : Nat) (scan : Scan) (e : Entry) : Option Scan :=
  if numeric e.d_name then
    match e.status with
    | .error errno => some { scan with stdout := scan.stdout ++ fopenFailed e.pid errno, errno }
    | .ok file =>
        (readStatus (-1) [] (reads (· = newline) MAX_SIZE file)).bind fun (ppid, name) ↦
          (insert steps scan.memory scan.root (malloc scan.mallocs) ppid e.pid name).map
            fun (memory, root) ↦ { scan with memory, root, mallocs := scan.mallocs + 1 }
  else some scan

/-- What there is when the program ends. -/
structure Ended where
  stdout : List UInt8
  status : Nat
  memory : Nodes Process

/-- The program, with `m` in memory before. -/
def main (malloc : Nat → Nat) (steps : Nat) (m : Nodes Process) (fuel : Nat) (entries : List Entry)
    (readdir : Option Int) : Option Ended :=
  (entries.foldlM (Scan.next malloc steps) ⟨[], m, none, 0, 0⟩).bind fun scan ↦
    let errno := readdir.getD scan.errno
    if errno ≠ 0 then
      some ⟨scan.stdout ++ ascii "readdir, errno: " ++ decimal errno, 1, scan.memory⟩
    else
      (scan.root.bind scan.memory).bind fun first ↦
        (dfs_show steps scan.memory scan.root fuel 1 0 ⟨false, 0⟩).bind fun (events, _) ↦
          (free_set steps scan.memory scan.root).map fun memory ↦
            ⟨scan.stdout ++ first.val.text ++ ascii " " ++ events.flatMap Event.text, 0, memory⟩

/-! ## The nodes and the list -/

/-- The nodes from `root` on are the list, at the addresses `as`, and nothing else has changed. -/
structure Represents (m₀ m : Nodes Process) (root : Option Nat) (as : List Nat)
    (processes : List Process) : Prop where
  chain : Chain m root as processes
  other : ∀ a ∉ as, m a = m₀ a

variable {m₀ m : Nodes Process} {root : Option Nat} {as : List Nat} {processes : List Process}
  {steps fuel cur_dep newnode : Nat} {ppi : Int} {g : Flags}

/-- A process is inserted at the end. -/
theorem Represents.insert (h : Represents m₀ m root as processes) (hnew : newnode ∉ as)
    (hsteps : as.length ≤ steps) (ppid pid : Int) (name : List UInt8) :
    ∃ m' root', Heap.insert steps m root newnode ppid pid name = some (m', root') ∧
      Represents m₀ m' root' (as ++ [newnode]) (ProcTree.insert processes ppid pid name) := by
  have hchain : Chain (Function.update m newnode (some ⟨⟨pid, ppid, name⟩, none⟩)) root as
      processes := h.chain.congr fun a ha ↦ Function.update_of_ne (ne_of_mem_of_not_mem ha hnew) _ _
  have hnone : ∀ a ∉ as ++ [newnode], a ∉ as ∧ a ≠ newnode := by
    intro a ha
    simpa using ha
  cases root with
  | none =>
      cases hchain
      refine ⟨_, _, rfl, .cons (Function.update_self ..) .nil, fun a ha ↦ ?_⟩
      obtain ⟨ha, hne⟩ := hnone a ha
      rw [Function.update_of_ne hne, h.other a ha]
  | some root =>
      obtain ⟨c, m', hlast, hlink, hchain, hother⟩ :=
        hchain.concat (Function.update_self ..) hnew hsteps
      refine ⟨m', some root, ?_, hchain, fun a ha ↦ ?_⟩
      · rw [Heap.insert]
        simp only [hlast, Option.bind_some, hlink, Option.map_some]
      · obtain ⟨ha, hne⟩ := hnone a ha
        rw [hother a ha, Function.update_of_ne hne, h.other a ha]

theorem loop_eq (show_ : Int → Nat → Flags → Option (List Event × Flags))
    (h : Chain m root as processes) (hsteps : as.length ≤ steps) (g : Flags) :
    loop m show_ ppi cur_dep steps root g = ProcTree.loop show_ ppi cur_dep processes g := by
  induction h generalizing steps g with
  | nil => rw [loop, ProcTree.loop]
  | cons ha _ ih =>
      obtain ⟨steps, rfl⟩ : ∃ n, steps = n + 1 :=
        ⟨steps - 1, (Nat.sub_add_cancel (Nat.one_le_of_lt hsteps)).symm⟩
      rw [loop, ha, Option.bind_some, ProcTree.loop]
      simp only [ih (Nat.le_of_succ_le_succ hsteps)]

theorem dfs_show_eq (h : Chain m root as processes) (hsteps : as.length ≤ steps) :
    dfs_show steps m root fuel ppi cur_dep g =
      ProcTree.dfs_show processes fuel ppi cur_dep g := by
  induction fuel generalizing ppi cur_dep g with
  | zero => rfl
  | succ fuel ih =>
      have hshow : dfs_show steps m root fuel = ProcTree.dfs_show processes fuel := by
        funext ppi cur_dep g
        exact ih
      rw [dfs_show, ProcTree.dfs_show, hshow, loop_eq _ h hsteps]

/-- The nodes are freed, and memory is what it was. -/
theorem Represents.free_set (h : Represents m₀ m root as processes) (hsteps : as.length ≤ steps)
    (hfresh : ∀ a ∈ as, m₀ a = none) : Heap.free_set steps m root = some m₀ := by
  obtain ⟨m', hm', hnone, hother⟩ := h.chain.freeAll hsteps
  have heq : m' = m₀ := by
    funext a
    by_cases ha : a ∈ as
    · rw [hnone a ha, hfresh a ha]
    · rw [hother a ha, h.other a ha]
  rw [Heap.free_set, hm', heq]

/-! ## The program -/

/-- The addresses of the first nodes. -/
def addresses (malloc : Nat → Nat) (n : Nat) : List Nat := (List.range n).map malloc

/-- The program with pointers has come to what the program with lists has come to. -/
structure Follows (malloc : Nat → Nat) (m₀ : Nodes Process) (scan : Scan) (s : ProcTree.Scan) :
    Prop where
  stdout : scan.stdout = s.stdout
  errno : scan.errno = s.errno
  mallocs : scan.mallocs = s.root.length
  represents : Represents m₀ scan.memory scan.root (addresses malloc s.root.length) s.root

variable {malloc : Nat → Nat} {scan : Scan} {s : ProcTree.Scan}

theorem Follows.next (h : Follows malloc m₀ scan s) (hinj : malloc.Injective)
    (hsteps : s.root.length ≤ steps) (e : Entry) :
    Option.Rel (Follows malloc m₀) (scan.next malloc steps e) (s.next e) := by
  by_cases hnumeric : numeric e.d_name
  · rw [Scan.next, ProcTree.Scan.next, if_pos hnumeric, if_pos hnumeric]
    cases e.status with
    | error errno => exact .some ⟨congrArg (· ++ _) h.stdout, rfl, h.mallocs, h.represents⟩
    | ok file =>
        cases hstatus : readStatus (-1) [] (reads (· = newline) MAX_SIZE file) with
        | none =>
            simp only [hstatus]
            exact .none
        | some status =>
            obtain ⟨ppid, name⟩ := status
            have hnew : malloc scan.mallocs ∉ addresses malloc s.root.length := by
              rw [h.mallocs, addresses, List.mem_map_of_injective hinj, List.mem_range]
              exact Nat.lt_irrefl _
            have hlen : (addresses malloc s.root.length).length = s.root.length := by
              rw [addresses, List.length_map, List.length_range]
            obtain ⟨m', root', hinsert, hrepresents⟩ :=
              h.represents.insert hnew (hlen.trans_le hsteps) ppid e.pid name
            have haddresses : addresses malloc s.root.length ++ [malloc scan.mallocs] =
                addresses malloc (ProcTree.insert s.root ppid e.pid name).length := by
              rw [h.mallocs, ProcTree.insert, List.length_append, List.length_singleton, addresses,
                addresses, List.range_succ, List.map_append]
              rfl
            simp only [hstatus, Option.bind_some, hinsert, Option.map_some]
            refine .some ⟨h.stdout, h.errno, ?_, haddresses ▸ hrepresents⟩
            rw [h.mallocs, ProcTree.insert, List.length_append]
            rfl
  · rw [Scan.next, ProcTree.Scan.next, if_neg hnumeric, if_neg hnumeric]
    exact .some h

/-- An entry adds at most one process. -/
theorem length_next {s' : ProcTree.Scan} {e : Entry} (h : s.next e = some s') :
    s'.root.length ≤ s.root.length + 1 := by
  rw [ProcTree.Scan.next] at h
  split at h
  · cases hfile : e.status with
    | error errno =>
        rw [hfile] at h
        cases h
        exact Nat.le_succ _
    | ok file =>
        rw [hfile] at h
        obtain ⟨status, -, rfl⟩ := Option.map_eq_some_iff.mp h
        exact (List.length_append ..).le
  · cases h
    exact Nat.le_succ _

theorem Follows.foldlM (hinj : malloc.Injective) {entries : List Entry}
    (h : Follows malloc m₀ scan s) (hsteps : s.root.length + entries.length ≤ steps) :
    Option.Rel (fun scan s ↦ Follows malloc m₀ scan s ∧ s.root.length ≤ steps)
      (entries.foldlM (Scan.next malloc steps) scan)
      (entries.foldlM ProcTree.Scan.next s) := by
  induction entries generalizing scan s with
  | nil => exact .some ⟨h, hsteps⟩
  | cons e entries ih =>
      rw [List.length_cons] at hsteps
      rw [List.foldlM_cons, List.foldlM_cons]
      have hnext := h.next hinj (Nat.le_of_add_right_le hsteps) e
      generalize hscan : scan.next malloc steps e = next at hnext
      cases hs : s.next e with
      | none =>
          rw [hs] at hnext
          cases hnext
          exact .none
      | some s' =>
          rw [hs] at hnext
          cases hnext with
          | some hnext =>
              have hlen := length_next hs
              exact ih hnext (by omega)

/-- **The program with pointers does what it does with lists**, for any addresses that `malloc`
gives out but once and that are not in use.  It does not touch a node that is not allocated, and
when it ends with status 0 it has freed its nodes and left the rest of memory as it was. -/
theorem main_refines {m : Nodes Process} (hinj : malloc.Injective)
    (hfresh : ∀ n, m (malloc n) = none) {entries : List Entry} (hsteps : entries.length ≤ steps)
    (fuel : Nat) (readdir : Option Int) :
    Option.Rel (fun ended out ↦ (ended.stdout, ended.status) = out ∧
        (ended.status = 0 → ended.memory = m))
      (main malloc steps m fuel entries readdir) (ProcTree.main fuel entries readdir) := by
  have hstart : Follows malloc m ⟨[], m, none, 0, 0⟩ ⟨[], [], 0⟩ :=
    ⟨rfl, rfl, rfl, .nil, fun _ _ ↦ rfl⟩
  have hfold := hstart.foldlM hinj ((Nat.zero_add _).trans_le hsteps)
  rw [main, ProcTree.main]
  generalize entries.foldlM (Scan.next malloc steps) ⟨[], m, none, 0, 0⟩ = scan? at hfold
  generalize entries.foldlM ProcTree.Scan.next ⟨[], [], 0⟩ = s? at hfold
  cases hfold with
  | none => exact .none
  | @some scan s hfold =>
      obtain ⟨hfollows, hlen⟩ := hfold
      rw [Option.bind_some, Option.bind_some]
      simp only [hfollows.errno, hfollows.stdout]
      split
      · exact .some ⟨rfl, fun hstatus ↦ absurd hstatus Nat.one_ne_zero⟩
      · have hrepresents := hfollows.represents
        have hsteps : (addresses malloc s.root.length).length ≤ steps := by
          rwa [addresses, List.length_map, List.length_range]
        have hfree := hrepresents.free_set hsteps fun a ha ↦ by
          obtain ⟨n, -, rfl⟩ := List.mem_map.mp ha
          exact hfresh n
        have hfirst := hrepresents.chain.map_val
        simp only [dfs_show_eq hrepresents.chain hsteps, hfree, ← hfirst]
        cases scan.root.bind scan.memory with
        | none => exact .none
        | some first =>
            simp only [Option.bind_some, Option.map_some]
            cases ProcTree.dfs_show s.root fuel 1 0 ⟨false, 0⟩ with
            | none => exact .none
            | some shown => exact .some ⟨rfl, fun _ ↦ rfl⟩

/-- Nothing is allocated, and `malloc` gives out the addresses from 1 on. -/
theorem main_refines_someProc : Option.Rel (fun ended out ↦ (ended.stdout, ended.status) = out ∧
      (ended.status = 0 → ended.memory = fun _ ↦ none))
    (main Nat.succ 3 (fun _ ↦ none) 5 someProc none) (ProcTree.main 5 someProc none) :=
  main_refines Nat.succ_injective (fun _ ↦ rfl) (Nat.le_refl 3) 5 none

end SysProg.ProcTree.Heap
