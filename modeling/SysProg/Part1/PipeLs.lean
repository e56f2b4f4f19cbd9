import SysProg.Lib.Lts
import SysProg.Lib.Memory

/-!
# A listing over a pipe

`pipe_ls.c` of `SP_HW5/Part1` runs `ls -l` in a child, with a pipe for its output, reads from the
pipe once, prints what it has got with `puts`, and waits for the child.

Parent and child are one transition system.  The child writes its output in pieces of any size
that the pipe has room for, and then ends; the parent's `read` returns some of what is there, at
most a buffer of it, and nothing only when the child has ended.  The buffer is not initialised.

* `stuck_iff_ended`: the parent does not wait forever, and `length_le_of_run` bounds the runs.
* `shows_iff` says what is printed, over all of them: any prefix of the output that fits in
  the buffer and in the pipe, up to its first NUL, with what is in memory behind it
  (`Setup.shown_eq`).
-/

namespace SysProg.Part1

open SysProg.Lib

/-! ## The program -/

/-- The size of `buf`. -/
def bufSize : Nat := 1024

/-- What `ls` writes, the room in a pipe, and what is in `buf` and behind it at the start. -/
structure Setup where
  output : List UInt8
  room : Nat
  buf : List UInt8
  behind : List UInt8
  room_pos : 0 < room
  length_buf : buf.length = bufSize

/-- Where the parent is, with its end of the pipe closed from `wait` on. -/
inductive ParentPc where
  | read
  | /-- `piece` has been read. -/ puts (piece : List UInt8)
  | close
  | wait
  | ended
deriving DecidableEq

/-- The child that runs `ls`, with what it has still to write. -/
inductive ChildPc where
  | writing (rest : List UInt8)
  | ended
deriving DecidableEq

structure State where
  parent : ParentPc
  child : ChildPc
  pipe : List UInt8
  stdout : List UInt8
deriving DecidableEq

/-- What the two processes do; `n` is what the call returns. -/
inductive Op where
  | write (n : Nat)
  | /-- The child has written everything. -/ exit
  | /-- The child writes to a pipe that has no reader. -/ sigpipe
  | read (n : Nat)
  | puts
  | close
  | /-- `waitpid` -/ wait
deriving DecidableEq

/-- The parent has its end of the pipe open. -/
def ParentPc.Reads : ParentPc → Bool
  | .read | .puts _ | .close => true
  | .wait | .ended => false

namespace Setup

variable (M : Setup)

/-- What `puts(buf)` prints when `piece` has been read. -/
def shown (piece : List UInt8) : List UInt8 :=
  cstring (overwrite M.buf 0 piece ++ M.behind) ++ [10]

/-- One step of the parent or of the child. -/
def next (s : State) : Op → Option State
  | .write n =>
      match s.child with
      | .writing rest =>
          if s.parent.Reads ∧ 0 < n ∧ n ≤ rest.length ∧ s.pipe.length + n ≤ M.room then
            some { s with child := .writing (rest.drop n), pipe := s.pipe ++ rest.take n }
          else none
      | .ended => none
  | .exit => if s.child = .writing [] then some { s with child := .ended } else none
  | .sigpipe =>
      match s.child with
      | .writing (_ :: _) => if s.parent.Reads then none else some { s with child := .ended }
      | _ => none
  | .read n =>
      if s.parent = .read ∧ n ≤ bufSize ∧ n ≤ s.pipe.length ∧
          (n = 0 → s.pipe = [] ∧ s.child = .ended) then
        some { s with parent := .puts (s.pipe.take n), pipe := s.pipe.drop n }
      else none
  | .puts =>
      match s.parent with
      | .puts piece => some { s with parent := .close, stdout := s.stdout ++ M.shown piece }
      | _ => none
  | .close => if s.parent = .close then some { s with parent := .wait } else none
  | .wait =>
      if s.parent = .wait ∧ s.child = .ended then some { s with parent := .ended } else none

def start : State := ⟨.read, .writing M.output, [], []⟩

/-- The two processes. -/
def pipeLs : Lts State Op := Lts.ofNext (· = M.start) M.next

end Setup

/-- The rule of each step. -/
inductive Step (M : Setup) (s : State) : Op → State → Prop
  | write {n : Nat} {rest : List UInt8} (hchild : s.child = .writing rest) (hreads : s.parent.Reads)
      (hn : 0 < n) (hrest : n ≤ rest.length) (hroom : s.pipe.length + n ≤ M.room) :
      Step M s (.write n) { s with child := .writing (rest.drop n), pipe := s.pipe ++ rest.take n }
  | exit (hchild : s.child = .writing []) : Step M s .exit { s with child := .ended }
  | sigpipe {c : UInt8} {rest : List UInt8} (hchild : s.child = .writing (c :: rest))
      (hreads : s.parent.Reads = false) : Step M s .sigpipe { s with child := .ended }
  | read {n : Nat} (hparent : s.parent = .read) (hsize : n ≤ bufSize) (hn : n ≤ s.pipe.length)
      (hzero : n = 0 → s.pipe = [] ∧ s.child = .ended) :
      Step M s (.read n) { s with parent := .puts (s.pipe.take n), pipe := s.pipe.drop n }
  | puts {piece : List UInt8} (hparent : s.parent = .puts piece) :
      Step M s .puts { s with parent := .close, stdout := s.stdout ++ M.shown piece }
  | close (hparent : s.parent = .close) : Step M s .close { s with parent := .wait }
  | wait (hparent : s.parent = .wait) (hchild : s.child = .ended) :
      Step M s .wait { s with parent := .ended }

variable {M : Setup} {s t : State} {a : Op} {tr : List Op}

theorem Step.of_step (h : M.pipeLs.step s a t) : Step M s a t := by
  have h : M.next s a = some t := h
  cases a with
  | write n =>
      simp only [Setup.next] at h
      split at h
      · next rest hchild =>
          obtain ⟨⟨hreads, hn, hrest, hroom⟩, h⟩ := Option.ite_none_right_eq_some.mp h
          cases h
          exact .write hchild hreads hn hrest hroom
      · cases h
  | exit =>
      obtain ⟨hchild, h⟩ := Option.ite_none_right_eq_some.mp h
      cases h
      exact .exit hchild
  | sigpipe =>
      simp only [Setup.next] at h
      split at h
      · next c rest hchild =>
          obtain ⟨hreads, h⟩ := Option.ite_none_left_eq_some.mp h
          cases h
          exact .sigpipe hchild (Bool.eq_false_iff.mpr hreads)
      · cases h
  | read n =>
      obtain ⟨⟨hparent, hsize, hn, hzero⟩, h⟩ := Option.ite_none_right_eq_some.mp h
      cases h
      exact .read hparent hsize hn hzero
  | puts =>
      simp only [Setup.next] at h
      split at h
      · next piece hparent =>
          cases h
          exact .puts hparent
      · cases h
  | close =>
      obtain ⟨hparent, h⟩ := Option.ite_none_right_eq_some.mp h
      cases h
      exact .close hparent
  | wait =>
      obtain ⟨⟨hparent, hchild⟩, h⟩ := Option.ite_none_right_eq_some.mp h
      cases h
      exact .wait hparent hchild

theorem Step.to_step (h : Step M s a t) : M.pipeLs.step s a t := by
  change M.next s a = some t
  cases h with
  | write hchild hreads hn hrest hroom =>
      simp only [Setup.next, hchild]
      exact if_pos ⟨hreads, hn, hrest, hroom⟩
  | exit hchild => exact if_pos hchild
  | sigpipe hchild hreads => simp [Setup.next, hchild, hreads]
  | read hparent hsize hn hzero => exact if_pos ⟨hparent, hsize, hn, hzero⟩
  | puts hparent => simp only [Setup.next, hparent]
  | close hparent => exact if_pos hparent
  | wait hparent hchild => exact if_pos ⟨hparent, hchild⟩

/-! ## No run is endless -/

/-- The steps the parent has before it. -/
def ParentPc.fuel : ParentPc → Nat
  | .read => 4
  | .puts _ => 3
  | .close => 2
  | .wait => 1
  | .ended => 0

/-- What the child has before it: a step for each byte at most, and its end. -/
def ChildPc.fuel : ChildPc → Nat
  | .writing rest => rest.length + 1
  | .ended => 0

def State.fuel (s : State) : Nat := s.parent.fuel + s.child.fuel

theorem Step.fuel (h : Step M s a t) : t.fuel < s.fuel := by
  unfold State.fuel
  cases h with
  | write hchild _ hn hrest =>
      simp only [hchild, ChildPc.fuel, List.length_drop]
      omega
  | exit hchild | sigpipe hchild => simp [hchild, ChildPc.fuel]
  | read hparent | puts hparent | close hparent | wait hparent => simp [hparent, ParentPc.fuel]

/-- A run has at most a step for each byte of the output, and five others. -/
theorem length_le_of_run (h : M.pipeLs.Run tr s) : tr.length + s.fuel ≤ M.output.length + 5 := by
  refine h.induction (P := fun tr s ↦ tr.length + s.fuel ≤ M.output.length + 5) ?_ ?_
  · rintro s rfl
    simp only [Setup.start, State.fuel, ParentPc.fuel, ChildPc.fuel, List.length_nil]
    omega
  · intro tr s a t _ ih hs
    have hlt := (Step.of_step hs).fuel
    rw [List.length_append, List.length_singleton]
    omega

/-- The child ends whatever the parent does. -/
theorem exists_step_of_writing {rest : List UInt8} (hchild : s.child = .writing rest)
    (h : s.parent.Reads = false ∨ s.pipe.length < M.room) : ∃ a t, M.pipeLs.step s a t := by
  cases rest with
  | nil => exact ⟨_, _, (Step.exit hchild).to_step⟩
  | cons c rest =>
      cases hreads : s.parent.Reads with
      | false => exact ⟨_, _, (Step.sigpipe hchild hreads).to_step⟩
      | true =>
          have hroom : s.pipe.length + 1 ≤ M.room := h.resolve_left (by simp [hreads])
          exact ⟨_, _, (Step.write hchild hreads Nat.one_pos (by simp) hroom).to_step⟩

/-- Until the parent has ended something can happen. -/
theorem exists_step (h : s.parent ≠ .ended) : ∃ a t, M.pipeLs.step s a t := by
  cases hparent : s.parent with
  | ended => exact absurd hparent h
  | puts piece => exact ⟨_, _, (Step.puts hparent).to_step⟩
  | close => exact ⟨_, _, (Step.close hparent).to_step⟩
  | wait =>
      cases hchild : s.child with
      | writing rest => exact exists_step_of_writing hchild (.inl (by rw [hparent]; rfl))
      | ended => exact ⟨_, _, (Step.wait hparent hchild).to_step⟩
  | read =>
      by_cases hpipe : s.pipe = []
      · cases hchild : s.child with
        | writing rest =>
            have hroom : s.pipe.length < M.room := hpipe ▸ M.room_pos
            exact exists_step_of_writing hchild (.inr hroom)
        | ended =>
            exact ⟨_, _, (Step.read hparent (Nat.zero_le _) (Nat.zero_le _)
              fun _ ↦ ⟨hpipe, hchild⟩).to_step⟩
      · have hn : 1 ≤ s.pipe.length := List.length_pos_iff.mpr hpipe
        exact ⟨_, _, (Step.read hparent (by decide) hn (by simp)).to_step⟩

theorem child_of_ended (h : M.pipeLs.Run tr s) : s.parent = .ended → s.child = .ended := by
  refine h.induction (P := fun _ s ↦ s.parent = .ended → s.child = .ended) ?_ ?_
  · rintro s rfl hparent
    cases hparent
  · intro tr s a t _ ih hs hparent
    cases Step.of_step hs with
    | write hchild => cases hchild.symm.trans (ih hparent)
    | exit | sigpipe => rfl
    | wait _ hchild => exact hchild
    | read | puts | close => cases hparent

/-- **The parent does not wait forever**: a run that cannot go on has come to its end. -/
theorem stuck_iff_ended (h : M.pipeLs.Run tr s) : M.pipeLs.Stuck s ↔ s.parent = .ended := by
  constructor
  · intro hstuck
    by_contra hparent
    obtain ⟨a, hstep⟩ := exists_step hparent
    exact hstuck a hstep
  · rintro hparent a ⟨t, hs⟩
    have hchild := child_of_ended h hparent
    cases Step.of_step hs with
    | write h | exit h | sigpipe h => cases hchild.symm.trans h
    | read h | puts h | close h | wait h => cases hparent.symm.trans h

/-! ## What is printed -/

/-- `read` may return `piece`: some of the output that fits in the buffer and in the pipe, and
nothing only if there is no output. -/
structure Setup.Readable (M : Setup) (piece : List UInt8) : Prop where
  pre : piece <+: M.output
  size : piece.length ≤ bufSize
  room : piece.length ≤ M.room
  nil : piece = [] → M.output = []

/-- What the child has still to write. -/
def ChildPc.rest : ChildPc → List UInt8
  | .writing rest => rest
  | .ended => []

/-- `piece` is in the buffer, or has been printed. -/
def Committed (M : Setup) (piece : List UInt8) (s : State) : Prop :=
  s.parent = .puts piece ∧ s.stdout = [] ∨ s.parent.fuel < 3 ∧ s.stdout = M.shown piece

/-- What has become of the output: before `read` it is in the pipe or still to be written, and
then a piece of it is printed. -/
inductive Printed (M : Setup) (s : State) : Prop
  | before (hparent : s.parent = .read) (houtput : M.output = s.pipe ++ s.child.rest)
      (hroom : s.pipe.length ≤ M.room) (hstdout : s.stdout = [])
  | after {piece : List UInt8} (h : M.Readable piece) (hpiece : Committed M piece s)

/-- A piece that is read before anything else has been. -/
theorem readable_take {rest : List UInt8} {n : Nat} (houtput : M.output = s.pipe ++ rest)
    (hroom : s.pipe.length ≤ M.room) (hsize : n ≤ bufSize) (hn : n ≤ s.pipe.length)
    (hzero : n = 0 → s.pipe = [] ∧ rest = []) : M.Readable (s.pipe.take n) where
  pre := houtput ▸ (List.take_prefix n s.pipe).trans (List.prefix_append _ _)
  size := (List.length_take_le n s.pipe).trans hsize
  room := (List.length_take_le' n s.pipe).trans hroom
  nil hnil := by
    rcases List.take_eq_nil_iff.mp hnil with rfl | hpipe
    · rw [houtput, (hzero rfl).1, (hzero rfl).2, List.append_nil]
    · have hn0 : n = 0 := Nat.le_zero.mp (by simpa [hpipe] using hn)
      rw [houtput, hpipe, (hzero hn0).2, List.append_nil]

theorem Committed.step {piece : List UInt8} (h : Committed M piece s) (hs : Step M s a t) :
    Committed M piece t := by
  rcases h with ⟨hparent, hstdout⟩ | ⟨hparent, hstdout⟩
  · cases hs with
    | write | exit | sigpipe => exact .inl ⟨hparent, hstdout⟩
    | puts h =>
        cases hparent.symm.trans h
        refine .inr ⟨Nat.le_refl 3, ?_⟩
        rw [hstdout, List.nil_append]
    | read h | close h | wait h => cases hparent.symm.trans h
  · cases hs with
    | write | exit | sigpipe => exact .inr ⟨hparent, hstdout⟩
    | close | wait => exact .inr ⟨by simp [ParentPc.fuel], hstdout⟩
    | read h | puts h => simp [h, ParentPc.fuel] at hparent

theorem Printed.step (h : Printed M s) (hs : Step M s a t) : Printed M t := by
  cases h with
  | after hreadable hpiece => exact .after hreadable (hpiece.step hs)
  | before hparent houtput hroom hstdout =>
      cases hs with
      | write hchild _ _ _ hroom' =>
          refine .before hparent ?_ ?_ hstdout
          · rw [houtput, hchild]
            simp [ChildPc.rest]
          · rw [List.length_append]
            exact (Nat.add_le_add_left (List.length_take_le _ _) _).trans hroom'
      | exit hchild =>
          refine .before hparent ?_ hroom hstdout
          rw [houtput, hchild]
          rfl
      | sigpipe _ hreads =>
          rw [hparent] at hreads
          cases hreads
      | read _ hsize hn hzero =>
          refine .after (readable_take houtput hroom hsize hn fun h0 ↦ ?_) (.inl ⟨rfl, hstdout⟩)
          obtain ⟨hpipe, hchild⟩ := hzero h0
          exact ⟨hpipe, congrArg ChildPc.rest hchild⟩
      | puts h | close h | wait h => cases hparent.symm.trans h

theorem printed (h : M.pipeLs.Run tr s) : Printed M s := by
  refine h.induction (P := fun _ s ↦ Printed M s) ?_ fun _ _ _ _ _ hp hs ↦ hp.step (.of_step hs)
  rintro s rfl
  exact .before rfl rfl (Nat.zero_le _) rfl

/-- What the parent has read it prints. -/
theorem exists_ended {piece : List UInt8} (h : M.pipeLs.Run tr s) (hpiece : Committed M piece s) :
    ∃ tr t, M.pipeLs.Run tr t ∧ t.parent = .ended ∧ t.stdout = M.shown piece := by
  have hprogress : ∃ tr' t, M.pipeLs.Path s tr' t ∧ Committed M piece t ∧ t.parent = .ended := by
    refine h.exists_path (I := fun _ s ↦ Committed M piece s) State.fuel ?_ hpiece
    intro tr s _ hpiece hgoal
    obtain ⟨a, t, hs⟩ := exists_step hgoal
    exact ⟨a, t, hs, hpiece.step (.of_step hs), (Step.of_step hs).fuel⟩
  obtain ⟨tr', t, hpath, hcommitted, hended⟩ := hprogress
  refine ⟨_, t, h.append hpath, hended, ?_⟩
  rcases hcommitted with ⟨hparent, -⟩ | ⟨-, hstdout⟩
  · cases hended.symm.trans hparent
  · exact hstdout

/-- Every piece that `read` may return it returns in some run. -/
theorem exists_committed {piece : List UInt8} (h : M.Readable piece) :
    ∃ tr s, M.pipeLs.Run tr s ∧ Committed M piece s := by
  have hstart : M.pipeLs.Run [] M.start := .init rfl
  obtain ⟨⟨rest, houtput⟩, hsize, hroom, hnil⟩ := h
  by_cases hpiece : piece = []
  · subst hpiece
    have hexit : Step M M.start .exit ⟨.read, .ended, [], []⟩ :=
      .exit (congrArg ChildPc.writing (hnil rfl))
    have hread : Step M ⟨.read, .ended, [], []⟩ (.read 0) ⟨.puts [], .ended, [], []⟩ :=
      .read rfl (Nat.zero_le _) (Nat.le_refl 0) fun _ ↦ ⟨rfl, rfl⟩
    exact ⟨_, _, (hstart.snoc hexit.to_step).snoc hread.to_step, .inl ⟨rfl, rfl⟩⟩
  · have hpos : 0 < piece.length := List.length_pos_iff.mpr hpiece
    have hwrite : Step M M.start (.write piece.length)
        ⟨.read, .writing (M.output.drop piece.length), [] ++ M.output.take piece.length, []⟩ :=
      .write rfl rfl hpos (by simp [← houtput]) (by simpa [Setup.start] using hroom)
    rw [← houtput, List.take_left, List.nil_append] at hwrite
    refine ⟨_, _, (hstart.snoc hwrite.to_step).snoc
      (Step.read rfl hsize (Nat.le_refl _) fun h0 ↦ absurd h0 hpos.ne').to_step, .inl ⟨?_, rfl⟩⟩
    exact congrArg ParentPc.puts (List.take_length)

/-- **What is printed.**  No interleaving of the two is endless, and none ends before the parent
has ended; what it has printed is then a piece of the output that `read` may return, as a string in
the buffer that nobody has initialised, and each of these pieces is printed in some run. -/
theorem shows_iff (M : Setup) :
    (∀ tr s, M.pipeLs.Run tr s →
      tr.length ≤ M.output.length + 5 ∧ (M.pipeLs.Stuck s ↔ s.parent = .ended)) ∧
    ∀ text, (∃ tr s, M.pipeLs.Run tr s ∧ s.parent = .ended ∧ s.stdout = text) ↔
      ∃ piece, M.Readable piece ∧ text = M.shown piece := by
  refine ⟨fun tr s h ↦ ⟨?_, stuck_iff_ended h⟩, fun text ↦ ⟨?_, ?_⟩⟩
  · exact (Nat.le_add_right _ _).trans (length_le_of_run h)
  · rintro ⟨tr, s, hrun, hended, rfl⟩
    cases printed hrun with
    | before hparent => cases hended.symm.trans hparent
    | after hreadable hpiece =>
        rcases hpiece with ⟨hparent, -⟩ | ⟨-, hstdout⟩
        · cases hended.symm.trans hparent
        · exact ⟨_, hreadable, hstdout⟩
  · rintro ⟨piece, hreadable, rfl⟩
    obtain ⟨tr, s, hrun, hpiece⟩ := exists_committed hreadable
    exact exists_ended hrun hpiece

/-- Behind a piece without a NUL comes what is in memory. -/
theorem Setup.shown_eq {piece : List UInt8} (h : piece.length ≤ bufSize) (hzero : 0 ∉ piece) :
    M.shown piece = piece ++ cstring (M.buf.drop piece.length ++ M.behind) ++ [10] := by
  have htake : piece.take M.buf.length = piece := List.take_of_length_le (M.length_buf.symm ▸ h)
  rw [shown, overwrite, List.take_zero, List.nil_append, Nat.sub_zero, htake, Nat.zero_add,
    List.append_assoc, cstring_append hzero]

/-- `ls` writes two bytes, and the buffer happens to be cleared. -/
def twoBytes : Setup where
  output := [97, 98]
  room := 65536
  buf := List.replicate bufSize 0
  behind := []
  room_pos := by decide
  length_buf := List.length_replicate

/-- The parent may see only the first of them. -/
theorem shows_iff_twoBytes :
    ∃ tr s, twoBytes.pipeLs.Run tr s ∧ s.parent = .ended ∧ s.stdout = [97, 10] := by
  refine ((shows_iff twoBytes).2 [97, 10]).mpr ⟨[97], ⟨⟨[98], rfl⟩, ?_, ?_, ?_⟩, ?_⟩
  · decide
  · decide
  · exact fun h ↦ absurd h (List.cons_ne_nil _ _)
  · have hbuf : twoBytes.buf.drop 1 = 0 :: List.replicate 1022 0 :=
      (List.drop_replicate).trans List.replicate_succ
    have hrest : cstring (twoBytes.buf.drop 1 ++ twoBytes.behind) = [] := by
      rw [hbuf]
      exact cstring_append_zero List.not_mem_nil _
    rw [Setup.shown_eq (by decide) (by decide)]
    exact congrArg (fun rest ↦ [97] ++ rest ++ [10]) hrest.symm

end SysProg.Part1
