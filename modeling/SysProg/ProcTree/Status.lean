import SysProg.Lib.Lines
import SysProg.Lib.Memory
import SysProg.Lib.Strtol

/-!
# The directory `/proc`

The programs of `SP_HW4` go through `/proc`, take the entries whose names begin with a figure for
processes, and read lines of their `status` files.

* `Entry` is an entry, with what opening its file gives.
* `Status` is a file as the kernel writes it, as far as the programs look at it.
* `reads_text`: how it is read line by line.
* `Lists` relates what is in `/proc` to the processes, and to those that are gone before their
  `status` file is opened.
-/

namespace SysProg.ProcTree

open SysProg.Lib

def newline : UInt8 := 10

/-- `MAX_SIZE` -/
def MAX_SIZE : Nat := 4096

/-- `strncmp(line, key, strlen(key)) == 0` -/
def hasKey (key : String) (line : List UInt8) : Bool := (ascii key).isPrefixOf line

/-- `!(d_name[0]-'0'<0 || d_name[0]-'0'>9)` -/
def numeric (d_name : List UInt8) : Bool := d_name.head?.any fun c ↦ 48 ≤ c && c ≤ 57

/-- An entry of `/proc`. -/
structure Entry where
  d_name : List UInt8
  /-- What is in its `status` file when it is opened, or the `errno` of `fopen`. -/
  status : Except Int (List UInt8)

/-- `atoi(entry->d_name)` -/
def Entry.pid (e : Entry) : Int := Strtol.atoi e.d_name

/-- `"/proc/%d/status"` -/
def statusPath (pid : Int) : List UInt8 := ascii "/proc/" ++ decimal pid ++ ascii "/status"

/-- The name in a line `Name`: `strcpy(Name, line+6); Name[strlen(Name)-1] = '\0'`.  For a line that
is shorter it is not defined. -/
def nameOf (line : List UInt8) : Option (List UInt8) :=
  if cstring (line.drop 6) = [] then none else some (cstring (line.drop 6)).dropLast

/-! ## The file -/

/-- A line that fits in the buffer. -/
structure IsLine (l : List UInt8) : Prop where
  newline_notMem : newline ∉ l
  zero_notMem : 0 ∉ l
  length_lt : l.length + 1 < MAX_SIZE

instance (l : List UInt8) : Decidable (IsLine l) :=
  decidable_of_iff (newline ∉ l ∧ 0 ∉ l ∧ l.length + 1 < MAX_SIZE)
    ⟨fun ⟨hnewline, hzero, hlen⟩ ↦ ⟨hnewline, hzero, hlen⟩, fun ⟨hnewline, hzero, hlen⟩ ↦
      ⟨hnewline, hzero, hlen⟩⟩

/-- A line that none of the programs looks for. -/
def Other (l : List UInt8) : Prop :=
  hasKey "Name:" l = false ∧ hasKey "PPid:" l = false ∧ hasKey "Uid:" l = false

/-- A `status` file as the kernel writes it. -/
structure Status where
  name : List UInt8
  /-- The lines between `Name` and `PPid`. -/
  upper : List (List UInt8)
  ppid : Nat
  /-- The lines between `PPid` and `Uid`. -/
  lower : List (List UInt8)
  uid : BitVec 32
  /-- The other ids, behind the first. -/
  uids : List UInt8
  /-- What comes after the line `Uid`. -/
  rest : List UInt8

namespace Status

def nameLine (s : Status) : List UInt8 := ascii "Name:\t" ++ s.name

def ppidLine (s : Status) : List UInt8 := ascii "PPid:\t" ++ decimal s.ppid

def uidLine (s : Status) : List UInt8 := ascii "Uid:\t" ++ (decimal s.uid.toNat ++ s.uids)

/-- The lines that the programs read. -/
def lines (s : Status) : List (List UInt8) :=
  s.nameLine :: (s.upper ++ s.ppidLine :: (s.lower ++ [s.uidLine]))

/-- The file. -/
def text (s : Status) : List UInt8 := s.lines.flatMap (· ++ [newline]) ++ s.rest

/-- What the kernel keeps to. -/
structure Valid (s : Status) : Prop where
  isLine : ∀ l ∈ s.lines, IsLine l
  other : ∀ l ∈ s.upper ++ s.lower, Other l
  ppid_lt : s.ppid < 2 ^ 31
  uids_head : ∀ c ∈ s.uids.head?, Strtol.isDigit 10 c = false

/-- The file, line by line. -/
theorem reads_text {s : Status} (h : s.Valid) : reads (· = newline) MAX_SIZE s.text =
    s.lines.map (· ++ [newline]) ++ reads (· = newline) MAX_SIZE s.rest := by
  have hfits : ∀ l ∈ s.lines,
      (∀ x ∈ l, decide (x = newline) = false) ∧ l.length + 1 < MAX_SIZE := by
    refine fun l hl ↦ ⟨fun x hx ↦ decide_eq_false ?_, (h.isLine l hl).length_lt⟩
    rintro rfl
    exact (h.isLine l hl).newline_notMem hx
  exact reads_flatMap_eol hfits (decide_eq_true rfl) s.rest

end Status

/-! ## Keys and values -/

/-- The end of a line belongs to no key. -/
theorem hasKey_append_newline {key : String} {l : List UInt8} (hkey : newline ∉ ascii key) :
    hasKey key (l ++ [newline]) = hasKey key l := by
  rw [Bool.eq_iff_iff, hasKey, hasKey, List.isPrefixOf_iff_prefix, List.isPrefixOf_iff_prefix,
    List.prefix_concat_iff]
  refine or_iff_right fun heq ↦ hkey ?_
  rw [heq]
  exact List.mem_append_right _ List.mem_cons_self

/-- No key is found in the other lines. -/
theorem Other.hasKey {l : List UInt8} (h : Other l) :
    ProcTree.hasKey "Name:" (l ++ [newline]) = false ∧
      ProcTree.hasKey "PPid:" (l ++ [newline]) = false ∧
      ProcTree.hasKey "Uid:" (l ++ [newline]) = false := by
  rw [hasKey_append_newline (by decide), hasKey_append_newline (by decide),
    hasKey_append_newline (by decide)]
  exact h

namespace Status

variable {s : Status}

theorem Valid.nameOf_nameLine (h : s.Valid) : nameOf (s.nameLine ++ [newline]) = some s.name := by
  have hzero : 0 ∉ s.name ++ [newline] := by
    have hline := (h.isLine s.nameLine List.mem_cons_self).zero_notMem
    rw [nameLine, List.mem_append, not_or] at hline
    simpa [newline] using hline.2
  have hdrop : (s.nameLine ++ [newline]).drop 6 = s.name ++ [newline] := rfl
  rw [nameOf, hdrop, cstring_of_notMem hzero, if_neg (List.concat_ne_nil _ _),
    List.dropLast_concat]

/-- A line of the file has no NUL, nor has what is left of it. -/
theorem Valid.cstring_drop (h : s.Valid) {l : List UInt8} (hl : l ∈ s.lines) (n : Nat) :
    cstring ((l ++ [newline]).drop n) = (l ++ [newline]).drop n := by
  refine cstring_of_notMem fun hmem ↦ ?_
  have hmem := List.mem_of_mem_drop hmem
  simp only [List.mem_append, List.mem_singleton] at hmem
  rcases hmem with hmem | hmem
  · exact (h.isLine l hl).zero_notMem hmem
  · exact absurd hmem (by decide)

theorem ppidLine_mem (s : Status) : s.ppidLine ∈ s.lines := by simp [lines]

theorem uidLine_mem (s : Status) : s.uidLine ∈ s.lines := by simp [lines]

end Status

/-! ## What is in the directory -/

/-- A process, with its `status` file. -/
structure Running where
  pid : Nat
  status : Status

/-- A process that was gone when its file was to be opened. -/
structure Gone where
  pid : Nat
  errno : Int

/-- The directory has an entry for each process, and others. -/
inductive Lists : List Entry → List Running → List Gone → Prop
  | nil : Lists [] [] []
  | other {e es ps gone} (he : numeric e.d_name = false) (h : Lists es ps gone) :
      Lists (e :: es) ps gone
  | process {p : Running} {es ps gone} (hs : p.status.Valid) (hpid : p.pid < 2 ^ 31)
      (h : Lists es ps gone) : Lists (⟨decimal p.pid, .ok p.status.text⟩ :: es) (p :: ps) gone
  | gone {g : Gone} {es ps gone} (hpid : g.pid < 2 ^ 31) (herrno : g.errno ≠ 0)
      (h : Lists es ps gone) : Lists (⟨decimal g.pid, .error g.errno⟩ :: es) ps (g :: gone)

theorem Lists.errno_ne_zero {es : List Entry} {ps : List Running} {gone : List Gone}
    (h : Lists es ps gone) : ∀ g ∈ gone, g.errno ≠ 0 := by
  induction h with
  | nil => simp
  | other _ _ ih | process _ _ _ ih => exact ih
  | gone _ herrno _ ih => exact List.forall_mem_cons.mpr ⟨herrno, ih⟩

/-- The name of a process is its number. -/
theorem numeric_decimal (pid : Nat) : numeric (decimal pid) = true := by
  have hdigits := Strtol.digits_printed (b := 10) (by decide) (by decide) pid
  have hdecimal : decimal pid = printed 10 pid := by
    rw [decimal, if_neg (by omega), Int.natAbs_natCast]
  obtain ⟨c, ds, hprinted⟩ := List.exists_cons_of_ne_nil (printed_ne_nil 10 pid)
  rw [hprinted] at hdigits
  have hc := hdigits.isDigit c List.mem_cons_self
  rw [Strtol.isDigit_ten] at hc
  rw [hdecimal, hprinted]
  exact hc

theorem pid_decimal {pid : Nat} (hpid : pid < 2 ^ 31) (status : Except Int (List UInt8)) :
    Entry.pid ⟨decimal pid, status⟩ = pid := by
  have hatoi : Strtol.atoi ([] ++ (decimal pid ++ [])) = pid :=
    Strtol.atoi_decimal (by simp) (by omega) (by omega) (by simp)
  rwa [List.append_nil] at hatoi

/-! ## Two processes -/

/-- The file of a process with a short name. -/
def statusOf (name : List UInt8) (ppid : Nat) (uid : BitVec 32) : Status where
  name := name
  upper := []
  ppid := ppid
  lower := []
  uid := uid
  uids := [9, 48]
  rest := []

theorem valid_statusOf {name : List UInt8} {ppid : Nat} {uid : BitVec 32}
    (h : ∀ l ∈ (statusOf name ppid uid).lines, IsLine l) (hppid : ppid < 2 ^ 31) :
    (statusOf name ppid uid).Valid :=
  ⟨h, fun _ hl ↦ absurd hl List.not_mem_nil, hppid, by rintro c ⟨⟩; rfl⟩

def init : Running := ⟨1, statusOf [97] 0 0⟩

def child : Running := ⟨7, statusOf [98] 1 1000⟩

theorem valid_init : init.status.Valid := valid_statusOf (by decide) (by decide)

theorem valid_child : child.status.Valid := valid_statusOf (by decide) (by decide)

/-- `/proc` with the entry `self`, and process 1 and its child. -/
def someProc : List Entry :=
  [⟨ascii "self", .error 0⟩, ⟨decimal init.pid, .ok init.status.text⟩,
    ⟨decimal child.pid, .ok child.status.text⟩]

theorem lists_someProc : Lists someProc [init, child] [] :=
  .other rfl (.process valid_init (by decide) (.process valid_child (by decide) .nil))

end SysProg.ProcTree
