import SysProg.ProcTree.Status

/-!
# The program `12_1`

It prints the processes of a user, who is given by name or by number.

* `userIdFromName_eq`: what is a number is not looked up, and is cut to the size of a `uid_t`; what
  is not found is the id `-1`.
* `main_shows`: the processes with that id are printed, in the order of the directory.  Where a
  process is gone the others are still printed, and the exit status is 1.
-/

namespace SysProg.ProcTree.Users

open SysProg.Lib

/-! ## The program -/

/-- `userIdFromName`; `getpwnam` gives the id of a user there is. -/
def userIdFromName (getpwnam : List UInt8 → Option (BitVec 32)) (name : Option (List UInt8)) :
    BitVec 32 :=
  match name with
  | none => -1
  | some s =>
      if s = [] then -1
      else
        let u := Strtol.strtol s 10
        if u.rest = [] then BitVec.ofInt 32 u.val else (getpwnam s).getD (-1)

/-- `line+n`, of a line that is long enough. -/
def behind (n : Nat) (line : List UInt8) : Option (List UInt8) :=
  if line.length < n then none else some (cstring (line.drop n))

/-- `Name`, `Uid` and `uid` -/
structure User where
  Name : List UInt8
  Uid : List UInt8
  uid : BitVec 32

/-- A line of the file. -/
def User.next (u : User) (line : List UInt8) : Option User :=
  if hasKey "Name:" line then (behind 6 line).map fun Name ↦ { u with Name }
  else if hasKey "Uid:" line then
    (behind 4 line).map fun Uid ↦ { u with Uid, uid := BitVec.ofInt 32 (Strtol.atoi Uid) }
  else some u

/-- The loop that reads a `status` file. -/
def readUser : User → List (List UInt8) → Option User
  | u, [] => some u
  | u, line :: lines => (u.next line).bind fun u ↦
      if u.Name ≠ [] ∧ u.Uid ≠ [] then some u else readUser u lines

/-- `printf("PID: %d\nName: %s\n",PID,Name)` -/
def shown (pid : Int) (name : List UInt8) : List UInt8 :=
  ascii "PID: " ++ decimal pid ++ ascii "\nName: " ++ name ++ ascii "\n"

structure Scan where
  stdout : List UInt8
  errno : Int

/-- An entry of the directory. -/
def Scan.next (user_id : BitVec 32) (scan : Scan) (e : Entry) : Option Scan :=
  if numeric e.d_name then
    match e.status with
    | .error errno => some { scan with errno }
    | .ok file => (readUser ⟨[], [], -1⟩ (reads (· = newline) MAX_SIZE file)).map fun u ↦
        if u.uid = user_id then { scan with stdout := scan.stdout ++ shown e.pid u.Name } else scan
  else some scan

/-- The program, with its arguments `argv[1]`, `argv[2]` and so on: what it prints, and its exit
status. -/
def main (getpwnam : List UInt8 → Option (BitVec 32)) (args : List (List UInt8))
    (entries : List Entry) (readdir : Option Int) : Option (List UInt8 × Nat) :=
  if 1 < args.length then some (ascii "too many arguements, only needs two\n", 1)
  else
    let user_id := userIdFromName getpwnam args.head?
    (entries.foldlM (Scan.next user_id) ⟨[], 0⟩).map fun scan ↦
      if readdir.getD scan.errno ≠ 0 then (scan.stdout ++ ascii "readdir", 1)
      else (scan.stdout, 0)

/-! ## Who the user is -/

/-- **Who the user is**: a numeral is the user, cut to 32 bits and never looked up, and another name
is looked up. -/
theorem userIdFromName_eq (getpwnam : List UInt8 → Option (BitVec 32)) {s : List UInt8}
    (hs : s ≠ []) :
    (∀ v, Strtol.Numeral 10 s v → userIdFromName getpwnam (some s) =
      BitVec.ofInt 32 (max Strtol.longMin (min Strtol.longMax v))) ∧
    ((∀ v, ¬ Strtol.Numeral 10 s v) →
      userIdFromName getpwnam (some s) = (getpwnam s).getD (-1)) := by
  constructor
  · intro v hv
    rw [userIdFromName, if_neg hs, hv.strtol (by decide)]
    exact if_pos rfl
  · intro h
    have hrest : (Strtol.strtol s 10).rest ≠ [] := fun hrest ↦ by
      obtain ⟨v, hv⟩ := Strtol.exists_numeral (by decide) hs hrest
      exact h v hv
    rw [userIdFromName, if_neg hs]
    exact if_neg hrest

theorem userIdFromName_eq_large :
    (∀ v, Strtol.Numeral 10 (decimal 4294967296) v →
      userIdFromName (fun _ ↦ none) (some (decimal 4294967296)) =
        BitVec.ofInt 32 (max Strtol.longMin (min Strtol.longMax v))) ∧
    ((∀ v, ¬ Strtol.Numeral 10 (decimal 4294967296) v) →
      userIdFromName (fun _ ↦ none) (some (decimal 4294967296)) =
        (none : Option (BitVec 32)).getD (-1)) :=
  userIdFromName_eq (fun _ ↦ none) (by decide)

/-- That is root. -/
example : userIdFromName (fun _ ↦ none) (some (decimal 4294967296)) = 0 := by decide

/-! ## Reading -/

/-- Other lines are skipped, as long as something is missing. -/
theorem readUser_other {ls : List (List UInt8)} (h : ∀ l ∈ ls, Other l) {u : User}
    (hu : ¬ (u.Name ≠ [] ∧ u.Uid ≠ [])) (more : List (List UInt8)) :
    readUser u (ls.map (· ++ [newline]) ++ more) = readUser u more := by
  induction ls with
  | nil => rfl
  | cons l ls ih =>
      obtain ⟨hl, hls⟩ := List.forall_mem_cons.mp h
      obtain ⟨hname, -, huid⟩ := hl.hasKey
      have hnext : u.next (l ++ [newline]) = some u := by
        rw [User.next, hname, huid]
        rfl
      rw [List.map_cons, List.cons_append, readUser, hnext, Option.bind_some, if_neg hu]
      exact ih hls

variable {s : Status}

theorem behind_line (h : s.Valid) {l : List UInt8} (hl : l ∈ s.lines) {n : Nat}
    (hn : n ≤ (l ++ [newline]).length) :
    behind n (l ++ [newline]) = some ((l ++ [newline]).drop n) := by
  rw [behind, if_neg (Nat.not_lt.mpr hn), h.cstring_drop hl]

theorem next_nameLine (h : s.Valid) (u : User) :
    u.next (s.nameLine ++ [newline]) = some { u with Name := s.name ++ [newline] } := by
  have hkey : hasKey "Name:" (s.nameLine ++ [newline]) = true := rfl
  have hdrop : (s.nameLine ++ [newline]).drop 6 = s.name ++ [newline] := rfl
  have hlen : 6 ≤ (s.nameLine ++ [newline]).length := by simp [Status.nameLine, ascii]
  rw [User.next, if_pos hkey, behind_line h List.mem_cons_self hlen, hdrop]
  rfl

theorem next_ppidLine (s : Status) (u : User) : u.next (s.ppidLine ++ [newline]) = some u := rfl

theorem ofInt_bmod (v : Int) : BitVec.ofInt 32 (v.bmod (2 ^ 32)) = BitVec.ofInt 32 v := by
  refine BitVec.eq_of_toInt_eq ?_
  rw [BitVec.toInt_ofInt, BitVec.toInt_ofInt]
  exact Int.bmod_bmod

/-- The first of the ids in the line is that of the user, also if it is no `int`. -/
theorem ofInt_atoi_uidLine (h : s.Valid) :
    BitVec.ofInt 32 (Strtol.atoi ((s.uidLine ++ [newline]).drop 4)) = s.uid := by
  have hdrop : (s.uidLine ++ [newline]).drop 4 =
      [9] ++ (decimal s.uid.toNat ++ (s.uids ++ [newline])) := by
    rw [Status.uidLine, List.append_assoc, List.append_assoc]
    rfl
  have hlt := s.uid.isLt
  have hrest : ∀ c ∈ (s.uids ++ [newline]).head?, Strtol.isDigit 10 c = false := by
    intro c hc
    rcases huids : s.uids with - | ⟨d, ds⟩
    · rw [huids] at hc
      obtain rfl := Option.some.inj hc
      rfl
    · refine h.uids_head c ?_
      rw [huids] at hc ⊢
      exact hc
  have hmax : (s.uid.toNat : Int) ≤ Strtol.longMax := by
    unfold Strtol.longMax
    omega
  have hmin : Strtol.longMin ≤ s.uid.toNat := by
    unfold Strtol.longMin
    omega
  rw [hdrop, Strtol.atoi, Strtol.strtol_decimal (List.forall_mem_singleton.mpr rfl) hmin hmax hrest,
    ofInt_bmod, BitVec.ofInt_natCast, BitVec.ofNat_toNat, BitVec.setWidth_eq]

theorem next_uidLine (h : s.Valid) (u : User) : u.next (s.uidLine ++ [newline]) =
    some { u with Uid := (s.uidLine ++ [newline]).drop 4, uid := s.uid } := by
  have hname : hasKey "Name:" (s.uidLine ++ [newline]) = false := rfl
  have hkey : hasKey "Uid:" (s.uidLine ++ [newline]) = true := rfl
  have hlen : 4 ≤ (s.uidLine ++ [newline]).length := by simp [Status.uidLine, ascii]
  rw [User.next, hname, if_neg Bool.false_ne_true, if_pos hkey,
    behind_line h s.uidLine_mem hlen, Option.map_some, ofInt_atoi_uidLine h]

/-- **The file is read as it is written**; the newline stays with the name. -/
theorem readUser_text (h : s.Valid) : ∃ Uid, readUser ⟨[], [], -1⟩
    (reads (· = newline) MAX_SIZE s.text) = some ⟨s.name ++ [newline], Uid, s.uid⟩ := by
  obtain ⟨hupper, hlower⟩ := List.forall_mem_append.mp h.other
  have hne : s.name ++ [newline] ≠ [] ∧ (s.uidLine ++ [newline]).drop 4 ≠ [] :=
    ⟨List.concat_ne_nil _ _, List.cons_ne_nil _ _⟩
  refine ⟨(s.uidLine ++ [newline]).drop 4, ?_⟩
  rw [Status.reads_text h, Status.lines, List.map_cons, List.cons_append, readUser,
    next_nameLine h, Option.bind_some, if_neg (fun hu ↦ hu.2 rfl), List.map_append,
    List.append_assoc, readUser_other hupper (fun hu ↦ hu.2 rfl), List.map_cons, List.cons_append,
    readUser, next_ppidLine, Option.bind_some, if_neg (fun hu ↦ hu.2 rfl), List.map_append,
    List.append_assoc, readUser_other hlower (fun hu ↦ hu.2 rfl), List.map_cons, List.cons_append,
    readUser, next_uidLine h, Option.bind_some, if_pos hne]

/-! ## What is printed -/

/-- What is printed for a process. -/
def Running.shown (p : Running) : List UInt8 := Users.shown p.pid (p.status.name ++ [newline])

theorem foldlM_lists {entries : List Entry} {ps : List Running} {gone : List Gone}
    (h : Lists entries ps gone) (user_id : BitVec 32) (scan : Scan) :
    entries.foldlM (Scan.next user_id) scan =
      some ⟨scan.stdout ++ (ps.filter (·.status.uid = user_id)).flatMap Running.shown,
        (gone.getLast?.map Gone.errno).getD scan.errno⟩ := by
  induction h generalizing scan with
  | nil => simp
  | other he _ ih =>
      have hnext : ∀ scan : Scan, scan.next user_id _ = some scan := fun scan ↦
        if_neg (by simpa using he)
      rw [List.foldlM_cons, hnext]
      exact ih scan
  | @process p es ps gone hs hpid _ ih =>
      obtain ⟨Uid, hread⟩ := readUser_text hs
      have hnext : scan.next user_id ⟨decimal p.pid, .ok p.status.text⟩ =
          some { scan with stdout := scan.stdout ++
            if p.status.uid = user_id then Running.shown p else [] } := by
        rw [Scan.next, numeric_decimal, if_pos rfl]
        simp only [hread, pid_decimal hpid, Option.map_some]
        split
        · rfl
        · rw [List.append_nil]
      rw [List.foldlM_cons, hnext]
      refine (ih _).trans ?_
      by_cases huser : p.status.uid = user_id
      · rw [if_pos huser, List.filter_cons_of_pos (by simpa using huser), List.flatMap_cons,
          List.append_assoc]
      · rw [if_neg huser, List.filter_cons_of_neg (by simpa using huser), List.append_nil]
  | @gone g es ps gone hpid herrno _ ih =>
      have hnext : scan.next user_id ⟨decimal g.pid, .error g.errno⟩ =
          some { scan with errno := g.errno } := by
        rw [Scan.next, numeric_decimal, if_pos rfl]
      rw [List.foldlM_cons, hnext]
      refine (ih _).trans ?_
      cases gone with
      | nil => rfl
      | cons g gone => simp [List.getLast?_cons]

/-- **The processes of the user are printed**, in the order of the directory; the exit status is 0
if none was gone before its file was opened. -/
theorem main_shows (getpwnam : List UInt8 → Option (BitVec 32)) {args : List (List UInt8)}
    (hargs : args.length ≤ 1) {entries : List Entry} {ps : List Running} {gone : List Gone}
    (h : Lists entries ps gone) : main getpwnam args entries none =
      let out := (ps.filter (·.status.uid = userIdFromName getpwnam args.head?)).flatMap
        Running.shown
      some (if gone = [] then (out, 0) else (out ++ ascii "readdir", 1)) := by
  rw [main, if_neg (Nat.not_lt.mpr hargs)]
  simp only [foldlM_lists h, Option.map_some, Option.getD_none, List.nil_append]
  by_cases hgone : gone = []
  · subst hgone
    rfl
  · have herrno := h.errno_ne_zero _ (List.getLast_mem hgone)
    rw [List.getLast?_eq_getLast_of_ne_nil hgone, Option.map_some, Option.getD_some,
      if_pos herrno, if_neg hgone]

/-- The processes of user 1000. -/
theorem main_shows_someProc : main (fun _ ↦ none) [ascii "1000"] someProc none =
    some (([init, child].filter
      (·.status.uid = userIdFromName (fun _ ↦ none) [ascii "1000"].head?)).flatMap
        Running.shown, 0) :=
  main_shows (fun _ ↦ none) (by decide) lists_someProc

/-- Only the child is one of them. -/
example : [init, child].filter
    (·.status.uid = userIdFromName (fun _ ↦ none) [ascii "1000"].head?) = [child] := rfl

end SysProg.ProcTree.Users
