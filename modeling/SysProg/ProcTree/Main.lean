import SysProg.ProcTree.Layout
import SysProg.ProcTree.Status

/-!
# The program `12_2`

`main` reads the parents and the names of the processes in `/proc` and prints them as a tree.

* `main_prints_tree`: the tree of the processes is printed, as it is to look like.
* `main_vanished`: where a process is gone, the error of its `fopen` is taken for one of `readdir`,
  and no tree is printed.
-/

namespace SysProg.ProcTree

open SysProg.Lib

/-! ## The program -/

/-- The loop that reads a `status` file: `ppid` and `Name` in the end.  It is left when there is a
`ppid`, for `Name` is an array and not null. -/
def readStatus : Int → List UInt8 → List (List UInt8) → Option (Int × List UInt8)
  | ppid, name, [] => some (ppid, name)
  | ppid, name, line :: lines =>
      if hasKey "PPid:" line then
        let ppid := Strtol.atoi (cstring (line.drop 5))
        if ppid ≠ -1 then some (ppid, name) else readStatus ppid name lines
      else if hasKey "Name:" line then
        (nameOf line).bind fun name ↦
          if ppid ≠ -1 then some (ppid, name) else readStatus ppid name lines
      else if ppid ≠ -1 then some (ppid, name)
      else readStatus ppid name lines

/-- What the loop over the directory has come to. -/
structure Scan where
  stdout : List UInt8
  root : List Process
  errno : Int

/-- What is printed when a file cannot be opened. -/
def fopenFailed (pid errno : Int) : List UInt8 :=
  ascii "fopen failed on '" ++ statusPath pid ++ ascii "': " ++ decimal errno ++ ascii "\n"

/-- An entry of the directory. -/
def Scan.next (scan : Scan) (e : Entry) : Option Scan :=
  if numeric e.d_name then
    match e.status with
    | .error errno => some { scan with stdout := scan.stdout ++ fopenFailed e.pid errno, errno }
    | .ok file =>
        (readStatus (-1) [] (reads (· = newline) MAX_SIZE file)).map fun (ppid, name) ↦
          { scan with root := insert scan.root ppid e.pid name }
  else some scan

/-- The program: what it prints, and its exit status.  `errno` is 0 before the loop, and `readdir`
is the error that `readdir` ends with, if it is not the end of the directory.  There is nothing if
the tree is higher than `fuel`, or the behaviour is not defined. -/
def main (fuel : Nat) (entries : List Entry) (readdir : Option Int) :
    Option (List UInt8 × Nat) :=
  (entries.foldlM Scan.next ⟨[], [], 0⟩).bind fun scan ↦
    let errno := readdir.getD scan.errno
    if errno ≠ 0 then some (scan.stdout ++ ascii "readdir, errno: " ++ decimal errno, 1)
    else
      -- `root->name` of an empty list
      scan.root.head?.bind fun first ↦
        (dfs_show scan.root fuel 1 0 ⟨false, 0⟩).map fun (events, _) ↦
          (scan.stdout ++ first.text ++ ascii " " ++ events.flatMap Event.text, 0)

/-! ## Reading -/

/-- Other lines are skipped. -/
theorem readStatus_other {ls : List (List UInt8)} (h : ∀ l ∈ ls, Other l) (name : List UInt8)
    (more : List (List UInt8)) :
    readStatus (-1) name (ls.map (· ++ [newline]) ++ more) = readStatus (-1) name more := by
  induction ls with
  | nil => rfl
  | cons l ls ih =>
      obtain ⟨hl, hls⟩ := List.forall_mem_cons.mp h
      obtain ⟨hname, hppid, -⟩ := hl.hasKey
      rw [List.map_cons, List.cons_append, readStatus, hname, hppid]
      exact ih hls

theorem atoi_ppidLine {s : Status} (h : s.Valid) :
    Strtol.atoi (cstring ((s.ppidLine ++ [newline]).drop 5)) = s.ppid := by
  have hdrop : (s.ppidLine ++ [newline]).drop 5 = [9] ++ (decimal s.ppid ++ [newline]) := by
    rw [Status.ppidLine, List.append_assoc]
    rfl
  have hlt := h.ppid_lt
  rw [h.cstring_drop s.ppidLine_mem, hdrop]
  exact Strtol.atoi_decimal (List.forall_mem_singleton.mpr rfl) (by omega) (by omega)
    (by rintro c ⟨⟩; rfl)

/-- **The file is read as it is written.** -/
theorem readStatus_text {s : Status} (h : s.Valid) :
    readStatus (-1) [] (reads (· = newline) MAX_SIZE s.text) = some ((s.ppid : Int), s.name) := by
  obtain ⟨hupper, -⟩ := List.forall_mem_append.mp h.other
  have hname : hasKey "PPid:" (s.nameLine ++ [newline]) = false ∧
      hasKey "Name:" (s.nameLine ++ [newline]) = true := ⟨rfl, rfl⟩
  have hppid : hasKey "PPid:" (s.ppidLine ++ [newline]) = true := rfl
  have hne : (s.ppid : Int) ≠ -1 := by omega
  rw [Status.reads_text h, Status.lines, List.map_cons, List.cons_append, readStatus, hname.1,
    hname.2, if_neg Bool.false_ne_true, if_pos rfl, h.nameOf_nameLine, Option.bind_some,
    if_neg (not_not.mpr rfl), List.map_append, List.append_assoc, readStatus_other hupper,
    List.map_cons, List.cons_append, readStatus, if_pos hppid, atoi_ppidLine h, if_pos hne]

/-- What `12_2` keeps of a process. -/
def Running.process (p : Running) : Process := ⟨p.pid, p.status.ppid, p.status.name⟩

/-- What the loop over the directory comes to. -/
theorem foldlM_lists {entries : List Entry} {ps : List Running} {gone : List Gone}
    (h : Lists entries ps gone) (scan : Scan) : entries.foldlM Scan.next scan =
      some ⟨scan.stdout ++ gone.flatMap fun g ↦ fopenFailed g.pid g.errno,
        scan.root ++ ps.map Running.process, (gone.getLast?.map Gone.errno).getD scan.errno⟩ := by
  induction h generalizing scan with
  | nil => simp
  | other he _ ih =>
      have hnext : ∀ scan : Scan, scan.next _ = some scan := fun scan ↦ if_neg (by simpa using he)
      rw [List.foldlM_cons, hnext]
      exact ih scan
  | @process p es ps gone hs hpid _ ih =>
      have hnext : scan.next ⟨decimal p.pid, .ok p.status.text⟩ =
          some { scan with root := insert scan.root p.status.ppid p.pid p.status.name } := by
        rw [Scan.next, numeric_decimal, if_pos rfl]
        simp only [readStatus_text hs, pid_decimal hpid, Option.map_some]
      rw [List.foldlM_cons, hnext]
      refine (ih _).trans ?_
      rw [insert, List.append_assoc]
      rfl
  | @gone g es ps gone hpid herrno _ ih =>
      have hnext : scan.next ⟨decimal g.pid, .error g.errno⟩ = some { scan with
          stdout := scan.stdout ++ fopenFailed g.pid g.errno, errno := g.errno } := by
        rw [Scan.next, numeric_decimal, if_pos rfl]
        simp only [pid_decimal hpid]
      rw [List.foldlM_cons, hnext]
      refine (ih _).trans ?_
      rw [List.flatMap_cons, List.append_assoc]
      cases gone with
      | nil => rfl
      | cons g gone => simp [List.getLast?_cons]

/-! ## What the program does -/

/-- **Where a process is gone** before its file is opened, its error is taken for one of `readdir`:
the program prints what failed and exits with status 1, and no tree is printed. -/
theorem main_vanished {entries : List Entry} {ps : List Running} {gone : List Gone}
    (h : Lists entries ps gone) (hgone : gone ≠ []) (fuel : Nat) :
    main fuel entries none = some ((gone.flatMap fun g ↦ fopenFailed g.pid g.errno) ++
      ascii "readdir, errno: " ++ decimal (gone.getLast hgone).errno, 1) := by
  have herrno := h.errno_ne_zero _ (List.getLast_mem hgone)
  rw [main, foldlM_lists h, Option.bind_some]
  simp only [Option.getD_none, List.getLast?_eq_getLast_of_ne_nil hgone, Option.map_some,
    Option.getD_some, List.nil_append]
  rw [if_pos herrno]

/-- What `dfs_show` prints is the tree as it is to look like. -/
theorem exists_dfs_show_eq_layout {root : List Process} (hpids : (root.map Process.pid).Nodup)
    (hzero : ∀ p ∈ root, p.pid ≠ 0) (hinit : ∀ p ∈ root, p.pid = 1 → p.ppid = 0)
    (hnames : ∀ p ∈ root, ReachesInit root p → (∀ q ∈ root, q.ppid ≠ p.pid) → p.name ≠ []) :
    ∃ t g, IsTree root t ∧ InOrder root t.preorder ∧
      ∀ fuel > t.height, dfs_show root fuel 1 0 ⟨false, 0⟩ = some (layout t true 0, g) := by
  have hrooted := rooted_children hpids hzero hinit
  obtain ⟨t, hgrown, hroots⟩ := hrooted.exists_grown fun p hp ↦ (reached_iff.mp hp).1
  have ht : IsTree root t := ⟨hgrown, hroots⟩
  have hl : (walk t 0 ⟨false, 0⟩).2.l = 0 := by rw [(newlines_walk t 0 _).2, ite_self]
  have hlayout : (walk t 0 ⟨false, 0⟩).1 = layout t true 0 := by
    rw [walk_eq_layout ((forall_leaves_iff ht _).mpr hnames)]
    rfl
  refine ⟨t, (walk t 0 ⟨false, 0⟩).2, ht, inOrder_preorder hrooted hgrown hroots,
    fun fuel hfuel ↦ ?_⟩
  rw [dfs_show_eq hgrown hroots hfuel, finish_of_zero hl, ← hlayout]

/-- **The tree of the processes is printed**, as it is to look like, behind the first of them. -/
theorem main_prints_tree {entries : List Entry} {ps : List Running} {root : List Process}
    {p : Process} (h : Lists entries ps []) (hroot : ps.map Running.process = p :: root)
    (hpids : ((p :: root).map Process.pid).Nodup) (hzero : ∀ q ∈ p :: root, q.pid ≠ 0)
    (hinit : ∀ q ∈ p :: root, q.pid = 1 → q.ppid = 0)
    (hnames : ∀ q ∈ p :: root, ReachesInit (p :: root) q → (∀ r ∈ p :: root, r.ppid ≠ q.pid) →
      q.name ≠ []) :
    ∃ t enough, IsTree (p :: root) t ∧ InOrder (p :: root) t.preorder ∧ ∀ fuel ≥ enough,
      main fuel entries none =
        some (p.text ++ ascii " " ++ (layout t true 0).flatMap Event.text, 0) := by
  obtain ⟨t, g, ht, horder, hshow⟩ := exists_dfs_show_eq_layout hpids hzero hinit hnames
  refine ⟨t, t.height + 1, ht, horder, fun fuel hfuel ↦ ?_⟩
  rw [main, foldlM_lists h, hroot, Option.bind_some]
  simp only [Option.getD_none, List.getLast?_nil, Option.map_none, List.nil_append,
    List.flatMap_nil, List.head?_cons, Option.bind_some, hshow fuel hfuel, Option.map_some]
  rw [if_neg (not_not.mpr rfl)]

/-! ## Two processes -/

theorem main_prints_tree_someProc : ∃ t enough, IsTree [init.process, child.process] t ∧
    InOrder [init.process, child.process] t.preorder ∧ ∀ fuel ≥ enough,
      main fuel someProc none =
        some (init.process.text ++ ascii " " ++ (layout t true 0).flatMap Event.text, 0) := by
  have hnames : ∀ q ∈ [init.process, child.process], q.name ≠ [] := by decide
  exact main_prints_tree lists_someProc rfl (by decide) (by decide) (by decide)
    fun q hq _ _ ↦ hnames q hq

/-- The child is gone when its file is to be opened. -/
theorem main_vanished_child : main 2
    [⟨decimal init.pid, .ok init.status.text⟩, ⟨decimal (7 : Nat), .error 2⟩] none =
      some (fopenFailed 7 2 ++ [] ++ ascii "readdir, errno: " ++ decimal 2, 1) := by
  have hgone : Lists [⟨decimal (7 : Nat), .error 2⟩] [] [⟨7, 2⟩] :=
    .gone (g := ⟨7, 2⟩) (by decide) (by decide) .nil
  exact main_vanished (.process valid_init (by decide) hgone) (List.cons_ne_nil _ _) 2

end SysProg.ProcTree
