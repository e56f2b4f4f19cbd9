import SysProg.Popen.Stack

/-!
# The descriptors of the stream table

The child of `my_popen` closes the streams that the parent has open, which it takes from the
counted slots of the table; and a call that fails should leave nothing behind.

* A slot that is counted and holds NULL is a hole.  The child applies `fileno` to it.  A
  close of another stream than the newest makes a hole or drops a stream that is open, and so
  does a close whose `waitpid` fails and a call of `my_popen` whose `fdopen` does.  No call
  ever removes all holes (`hasHole_call`).
* `closesOpen_iff`: the child closes what it should, if and only if there is no child because
  the table is full, or no call has made a hole.
* `atomic_iff`: a failed call of `my_popen` leaves the parent as it was unless `fork` or
  `fdopen` fails, and `my_pclose` drops the counter unless `waitpid` fails.
-/

namespace SysProg.Popen

open SysProg.Lib

/-- What `my_popen` returns. -/
def PopenResult.stream (r : PopenResult) : FilePtr :=
  match r.ret with
  | .ok f => f
  | .error _ => none

/-- Whether `my_pclose` has removed a stream from the table. -/
def PcloseResult.Removed : PcloseResult → Prop
  | .waited _ _ | .waitFailed _ => True
  | .notFound | .filenoNull => False

instance : DecidablePred PcloseResult.Removed
  | .waited _ _ | .waitFailed _ => isTrue trivial
  | .notFound | .filenoNull => isFalse id

variable {p : Parent} {os : PopenOs} {command mode : String} {opens : Live} {f : Nat}
  {calls : List Call}

/-! ## The two functions -/

/-- With a mode and a free slot, `my_popen` spawns a child; its end of the pipe is one of the
two, and the parent keeps the other. -/
theorem exists_spawn (h : p.popenCount < maxPopen) (hmode : mode = "r" ∨ mode = "w") :
    ∃ std ends, (∀ pfd, ends pfd = pfd ∨ ends pfd = pfd.swap) ∧
      ∀ os command, myPopen os command mode p = spawn os command std ends p h := by
  rcases hmode with rfl | rfl
  · exact ⟨stdoutFileno, fun pfd ↦ (pfd.1, pfd.2), fun _ ↦ .inl rfl,
      fun _ _ ↦ by simp [myPopen, Nat.not_le_of_lt h]⟩
  · exact ⟨stdinFileno, fun pfd ↦ (pfd.2, pfd.1), fun _ ↦ .inr rfl,
      fun _ _ ↦ by simp [myPopen, Nat.not_le_of_lt h]⟩

/-- Without, it does nothing. -/
theorem refused (h : ¬ (p.popenCount < maxPopen ∧ (mode = "r" ∨ mode = "w"))) :
    (myPopen os command mode p).parent = p ∧ (myPopen os command mode p).stream = none ∧
      (myPopen os command mode p).child = [] := by
  rcases not_and_or.mp h with h | h
  · simp [myPopen, Nat.le_of_not_lt h, PopenResult.stream]
  · obtain ⟨hr, hw⟩ := not_or.mp h
    by_cases hlimit : maxPopen ≤ p.popenCount <;>
      simp [myPopen, hlimit, hr, hw, PopenResult.stream]

/-! ## What a failed call leaves behind -/

/-- A call of `my_popen` that returns NULL leaves the table and the open descriptors as they
were, and one of `my_pclose` that has removed a stream drops the counter. -/
def Atomic (p : Parent) : Call → Prop
  | .popen os command mode =>
      (myPopen os command mode p).stream = none →
        (myPopen os command mode p).parent.popenCount = p.popenCount ∧
          (myPopen os command mode p).parent.popenStreams = p.popenStreams ∧
          (myPopen os command mode p).parent.popenPids = p.popenPids ∧
          (myPopen os command mode p).parent.fds.Perm p.fds
  | .pclose os stream =>
      (myPclose os stream p).1.Removed → (myPclose os stream p).2.popenCount + 1 = p.popenCount

/-- Neither `fork` nor `fdopen` fails behind a `pipe`, and `waitpid` does not fail for a stream
that is in the table. -/
def NoLateFailure (p : Parent) : Call → Prop
  | .popen os _ mode =>
      p.popenCount < maxPopen → mode = "r" ∨ mode = "w" → os.pipe ≠ none →
        os.fork ≠ none ∧ os.fdopen ≠ none
  | .pclose os stream =>
      stream ≠ none → (∃ i : Fin maxPopen, i < p.popenCount ∧ p.popenStreams i = stream) → os ≠ none

/-- Two descriptors more, or a slot more, than before. -/
theorem atomic_popen_iff : Atomic p (.popen os command mode) ↔
    NoLateFailure p (.popen os command mode) := by
  by_cases h : p.popenCount < maxPopen ∧ (mode = "r" ∨ mode = "w")
  · obtain ⟨std, ends, -, hspawn⟩ := exists_spawn h.1 h.2
    simp only [Atomic, NoLateFailure, hspawn, h.1, h.2, true_imp_iff]
    cases hpipe : os.pipe with
    | none => simp [spawn, hpipe]
    | some pfd =>
        cases hfork : os.fork with
        | none =>
            refine iff_of_false (fun hatomic ↦ ?_) (by simp)
            have hstream : (spawn os command std ends p h.1).stream = none := by
              simp [spawn, hpipe, hfork, PopenResult.stream]
            have hlength := (hatomic hstream).2.2.2.length_eq
            simp only [spawn, hpipe, hfork, List.length_cons] at hlength
            omega
        | some pid =>
            have hstream : (spawn os command std ends p h.1).stream = os.fdopen := by
              simp [spawn, hpipe, hfork, PopenResult.stream]
            rw [hstream]
            cases hfdopen : os.fdopen with
            | none =>
                refine iff_of_false (fun hatomic ↦ ?_) (by simp)
                have hcount := (hatomic rfl).1
                simp [spawn, hpipe, hfork, storeStream] at hcount
            | some f => simp
  · obtain ⟨hparent, -, -⟩ := @refused p os command mode h
    refine iff_of_true (fun _ ↦ ?_) fun hcount hmode ↦ absurd ⟨hcount, hmode⟩ h
    rw [hparent]
    exact ⟨rfl, rfl, rfl, .refl _⟩

theorem atomic_pclose_iff {os : Option Int} {stream : FilePtr} :
    Atomic p (.pclose os stream) ↔ NoLateFailure p (.pclose os stream) := by
  simp only [Atomic, NoLateFailure, myPclose]
  cases hfind : findSlot stream p with
  | none =>
      refine iff_of_true (fun hremoved ↦ hremoved.elim) fun _ hslot ↦ ?_
      obtain ⟨i, hi, hstream⟩ := hslot
      exact absurd hstream (findSlot_eq_none.mp hfind i hi)
  | some i =>
      obtain ⟨hi, hstream⟩ := findSlot_eq_some hfind
      cases stream with
      | none => exact iff_of_true (fun hremoved ↦ hremoved.elim) fun hne ↦ absurd rfl hne
      | some f =>
          cases os with
          | none =>
              refine iff_of_false (fun hatomic ↦ ?_) fun hnot ↦
                hnot (Option.some_ne_none f) ⟨i, hi, hstream⟩ rfl
              have hcount : p.popenCount + 1 = p.popenCount := hatomic trivial
              omega
          | some stat =>
              refine iff_of_true (fun _ ↦ ?_) fun _ _ ↦ Option.some_ne_none stat
              show p.popenCount - 1 + 1 = p.popenCount
              omega

/-- **Failures are undone**, if and only if they come before `fork`, or in a `my_pclose` that
finds nothing. -/
theorem atomic_iff (calls : List Call) (c : Call) :
    Atomic (table calls) c ↔ NoLateFailure (table calls) c := by
  cases c with
  | popen os command mode => exact atomic_popen_iff
  | pclose os stream => exact atomic_pclose_iff

/-- A `fork` that fails leaves both ends of the pipe open. -/
theorem not_atomic_fork : ¬ ∀ calls c, Atomic (table calls) c := by
  intro h
  have hatomic := h [] (.popen ⟨some (3, 4), none, none⟩ "cat" "r")
  obtain ⟨hfork, -⟩ := atomic_popen_iff.mp hatomic (by decide) (.inl rfl) nofun
  exact hfork rfl

/-! ## The streams that are open -/

/-- The open streams behind a call: what it returns is opened, and what it finds is closed. -/
def Live.next (p : Parent) (opens : Live) : Call → Live
  | .popen os command mode =>
      match (myPopen os command mode p).stream, os.fork with
      | some f, some pid => opens ++ [(f, pid)]
      | _, _ => opens
  | .pclose os stream =>
      if (myPclose os stream p).1.Removed then opens.filter fun e ↦ some e.1 ≠ stream else opens

/-- The open streams after a sequence of calls, oldest first, each with its child. -/
def openStreams (calls : List Call) : Live :=
  (calls.foldl (fun s c ↦ (s.1.call c, Live.next s.1 s.2 c)) (Parent.init, [])).2

@[simp] theorem openStreams_nil : openStreams [] = [] := rfl

@[simp] theorem openStreams_concat (calls : List Call) (c : Call) :
    openStreams (calls ++ [c]) = (openStreams calls).next (table calls) c := by
  have hfst : (calls.foldl (fun s c ↦ (s.1.call c, Live.next s.1 s.2 c)) (Parent.init, [])).1 =
      table calls := by
    induction calls using List.reverseRecOn with
    | nil => rfl
    | append_singleton calls c ih => rw [List.foldl_concat, ih, table_concat]
  rw [openStreams, List.foldl_append, List.foldl_cons, List.foldl_nil, hfst, openStreams]

/-- `fdopen` returns no pointer that is in use. -/
def Fresh (opens : Live) : Call → Prop
  | .popen os _ _ => os.fdopen ∉ opens.map fun e ↦ some e.1
  | .pclose _ _ => True

/-- The child closes the ends of its pipe and the descriptors of the open streams, and no
others, before it executes the command. -/
def ClosesOpen (opens : Live) (p : Parent) : Prop :=
  ∀ os command mode pfd, os.pipe = some pfd → (myPopen os command mode p).child ≠ [] →
    ∃ pre, (myPopen os command mode p).child = pre ++ [.execl command] ∧
      .filenoNull ∉ pre ∧
      ∀ fd, .close fd ∈ pre ↔ fd = pfd.1 ∨ fd = pfd.2 ∨ ∃ e ∈ opens, p.fileno e.1 = fd

/-! ## Holes -/

/-- A counted slot holds NULL. -/
def HasHole (p : Parent) : Prop := ∃ i : Fin maxPopen, i < p.popenCount ∧ p.popenStreams i = none

/-- A call that makes no hole: its `fdopen` succeeds, and what it closes is the newest stream,
whose child it waits for. -/
def NoHole (p : Parent) (opens : Live) : Call → Prop
  | .popen os _ mode =>
      p.popenCount < maxPopen → mode = "r" ∨ mode = "w" → os.pipe ≠ none → os.fork ≠ none →
        os.fdopen ≠ none
  | .pclose os stream => stream ∈ opens.map (fun e ↦ some e.1) →
      stream = opens.getLast?.map Prod.fst ∧ os ≠ none

instance (opens : Live) : ∀ c, Decidable (Fresh opens c)
  | .popen .. => inferInstanceAs (Decidable (_ ∉ _))
  | .pclose .. => inferInstanceAs (Decidable True)

instance (p : Parent) (opens : Live) : ∀ c, Decidable (NoHole p opens c)
  | .popen .. => inferInstanceAs (Decidable (_ → _))
  | .pclose .. => inferInstanceAs (Decidable (_ → _))

/-- **What `my_popen` can do**: nothing to the table, or one more entry. -/
theorem call_popen_cases (os : PopenOs) (command mode : String) (p : Parent) :
    (∃ fds, p.call (.popen os command mode) = { p with fds := fds }) ∨
      ∃ pid, os.fork = some pid ∧ Pushed p (p.call (.popen os command mode)) os.fdopen pid := by
  by_cases h : p.popenCount < maxPopen ∧ (mode = "r" ∨ mode = "w")
  · obtain ⟨std, ends, -, hspawn⟩ := exists_spawn h.1 h.2
    have hcall : p.call (.popen os command mode) = (spawn os command std ends p h.1).parent :=
      congrArg PopenResult.parent (hspawn os command)
    rw [hcall]
    cases hpipe : os.pipe with
    | none => exact .inl ⟨p.fds, by simp [spawn, hpipe]⟩
    | some pfd =>
        cases hfork : os.fork with
        | none => exact .inl ⟨_, by simp only [spawn, hpipe, hfork]; rfl⟩
        | some pid => exact .inr ⟨pid, rfl, spawn_pushed hpipe hfork command std ends p h.1⟩
  · exact .inl ⟨p.fds, (@refused p os command mode h).1⟩

/-- **A hole stays**, or another comes in its place. -/
theorem hasHole_call (h : HasHole p) (c : Call) : HasHole (p.call c) := by
  obtain ⟨j, hj, hnull⟩ := h
  cases c with
  | popen os command mode =>
      rcases call_popen_cases os command mode p with ⟨fds, hcall⟩ | ⟨pid, -, hpushed⟩
      · rw [hcall]
        exact ⟨j, hj, hnull⟩
      · refine ⟨j, by rw [hpushed.count]; omega, ?_⟩
        rw [hpushed.streams, if_neg (Nat.ne_of_lt hj), hnull]
  | pclose os stream =>
      rw [Parent.call, myPclose]
      cases hfind : findSlot stream p with
      | none => exact ⟨j, hj, hnull⟩
      | some i =>
          obtain ⟨hi, hstream⟩ := findSlot_eq_some hfind
          cases stream with
          | none => exact ⟨j, hj, hnull⟩
          | some f =>
              have hne : j ≠ i := fun heq ↦ by simp [← heq, hnull] at hstream
              cases os with
              | none => exact ⟨j, hj, (Function.update_of_ne hne _ _).trans hnull⟩
              | some stat =>
                  by_cases hlast : (j : Nat) < p.popenCount - 1
                  · exact ⟨j, hlast, (Function.update_of_ne hne _ _).trans hnull⟩
                  · -- the hole was the last slot, and the cleared one is before it
                    have hij : (i : Nat) ≠ j := fun heq ↦ hne (Fin.ext heq.symm)
                    refine ⟨i, show (i : Nat) < p.popenCount - 1 by omega, ?_⟩
                    show Function.update p.popenStreams i none i = none
                    exact Function.update_self ..

/-! ## The child -/

theorem child_spawn {pfd : Fd × Fd} {pid : Pid} (hpipe : os.pipe = some pfd)
    (hfork : os.fork = some pid) (std : Fd) (ends : Fd × Fd → Fd × Fd)
    (h : p.popenCount < maxPopen) :
    (spawn os command std ends p h).child =
      ([.close (ends pfd).1, .dup2 (ends pfd).2 std, .close (ends pfd).2] ++ closeStreams p) ++
        [.execl command] := by
  simp only [spawn, hpipe, hfork]
  rfl

/-- The child of a parent with a hole applies `fileno` to NULL. -/
theorem not_closesOpen_of_hasHole (h : HasHole p) (hroom : p.popenCount < maxPopen) :
    ¬ ClosesOpen opens p := by
  intro hcloses
  obtain ⟨i, hi, hnull⟩ := h
  obtain ⟨std, ends, -, hspawn⟩ := @exists_spawn p "r" hroom (.inl rfl)
  have hmem : .filenoNull ∈ closeStreams p :=
    List.mem_map.mpr ⟨i, mem_slots.mpr hi, by rw [hnull]⟩
  have hchild := @child_spawn p ⟨some (3, 4), some 5, none⟩ "cat" (3, 4) 5 rfl rfl std ends hroom
  rw [← hspawn] at hchild
  obtain ⟨pre, hpre, hnot, -⟩ :=
    hcloses ⟨some (3, 4), some 5, none⟩ "cat" "r" (3, 4) rfl (by rw [hchild]; simp)
  obtain ⟨rfl, -⟩ := List.append_inj' (hpre.symm.trans hchild) rfl
  exact hnot (List.mem_append_right _ hmem)

/-- In a packed table the child finds the open streams. -/
theorem mem_closeStreams_iff (h : Stacked opens p) {c : ChildCall} :
    c ∈ closeStreams p ↔ ∃ e ∈ opens, c = .close (p.fileno e.1) := by
  rw [closeStreams, List.mem_map]
  constructor
  · rintro ⟨i, hi, rfl⟩
    obtain ⟨e, he, hstream, -⟩ := h.getElem (mem_slots.mp hi)
    exact ⟨e, List.mem_of_getElem? he, by rw [hstream]⟩
  · rintro ⟨e, he, rfl⟩
    obtain ⟨i, hi, hlt⟩ := h.slotOf he
    exact ⟨i, mem_slots.mpr hlt, by rw [(h.slot i e hi).1]⟩

theorem closesOpen_of_stacked (h : Stacked opens p) : ClosesOpen opens p := by
  intro os command mode pfd hpipe hchild
  by_cases hroom : p.popenCount < maxPopen ∧ (mode = "r" ∨ mode = "w")
  · obtain ⟨std, ends, hends, hspawn⟩ := exists_spawn hroom.1 hroom.2
    rw [hspawn] at hchild ⊢
    cases hfork : os.fork with
    | none => exact absurd (by simp [spawn, hpipe, hfork]) hchild
    | some pid =>
        refine ⟨_, child_spawn hpipe hfork std ends hroom.1, ?_, fun fd ↦ ?_⟩
        · simp [mem_closeStreams_iff h]
        · rcases hends pfd with heq | heq <;>
            simp [mem_closeStreams_iff h, heq, eq_comm, or_left_comm]
  · exact absurd (@refused p os command mode hroom).2.2 hchild

/-- A table that is full has no child. -/
theorem closesOpen_of_full (h : p.popenCount = maxPopen) : ClosesOpen opens p := by
  intro os command mode pfd _ hchild
  exact absurd (refused fun hroom ↦ Nat.ne_of_lt hroom.1 h).2.2 hchild

/-! ## Histories -/

/-- The table is packed, or it has a hole, as the call says. -/
def Follows (good : Prop) (opens : Live) (p : Parent) : Prop :=
  (good ∧ Stacked opens p) ∨ (¬ good ∧ HasHole p)

theorem next_of_stream (h : (myPopen os command mode p).stream = none) :
    Live.next p opens (.popen os command mode) = opens := by
  simp [Live.next, h]

/-- Behind `pipe` and `fork` a stream that `fdopen` does not give is a hole. -/
theorem follows_fdopen (h : Stacked opens p) (hfresh : Fresh opens (.popen os command mode))
    (hroom : p.popenCount < maxPopen) (hmode : mode = "r" ∨ mode = "w") {pfd : Fd × Fd} {pid : Pid}
    (hpipe : os.pipe = some pfd) (hfork : os.fork = some pid) :
    Follows (NoHole p opens (.popen os command mode)) (Live.next p opens (.popen os command mode))
      (p.call (.popen os command mode)) := by
  obtain ⟨std, ends, -, hspawn⟩ := exists_spawn hroom hmode
  have hpipe' : os.pipe ≠ none := hpipe ▸ Option.some_ne_none pfd
  have hfork' : os.fork ≠ none := hfork ▸ Option.some_ne_none pid
  have hcall : p.call (.popen os command mode) = (spawn os command std ends p hroom).parent :=
    congrArg PopenResult.parent (hspawn os command)
  have hpushed := spawn_pushed hpipe hfork command std ends p hroom
  rw [← hcall] at hpushed
  have hstream : (myPopen os command mode p).stream = os.fdopen := by
    rw [hspawn]
    simp [spawn, hpipe, hfork, PopenResult.stream]
  cases hfdopen : os.fdopen with
  | none =>
      refine .inr ⟨fun hgood ↦ hgood hroom hmode hpipe' hfork' hfdopen,
        ⟨p.popenCount, hroom⟩, ?_, ?_⟩
      · rw [hpushed.count]
        exact Nat.lt_succ_self _
      · rw [hpushed.streams, if_pos rfl, hfdopen]
  | some f =>
      have hsome : os.fdopen ≠ none := hfdopen ▸ Option.some_ne_none f
      have hstacked := h.popen command mode hpipe' hfork' hsome hfresh
      have hnext : Live.next p opens (.popen os command mode) =
          opens.step (.popen os command mode) := by
        simp [Live.next, Live.step, hstream, hfdopen, hfork, h.count ▸ hroom, hmode]
      rw [hnext]
      exact .inl ⟨fun _ _ _ _ ↦ hsome, hstacked⟩

theorem follows_popen (h : Stacked opens p) (hfresh : Fresh opens (.popen os command mode)) :
    Follows (NoHole p opens (.popen os command mode)) (Live.next p opens (.popen os command mode))
      (p.call (.popen os command mode)) := by
  by_cases hroom : p.popenCount < maxPopen ∧ (mode = "r" ∨ mode = "w")
  · obtain ⟨std, ends, -, hspawn⟩ := exists_spawn hroom.1 hroom.2
    have hcall : p.call (.popen os command mode) = (spawn os command std ends p hroom.1).parent :=
      congrArg PopenResult.parent (hspawn os command)
    cases hpipe : os.pipe with
    | none =>
        have hstream : (myPopen os command mode p).stream = none := by
          rw [hspawn]
          simp [spawn, hpipe, PopenResult.stream]
        rw [next_of_stream hstream, hcall]
        refine .inl ⟨fun _ _ hne ↦ absurd hpipe hne, ?_⟩
        rwa [spawn, hpipe]
    | some pfd =>
        cases hfork : os.fork with
        | none =>
            have hnext : Live.next p opens (.popen os command mode) = opens := by
              simp [Live.next, hfork]
            rw [hnext, hcall]
            refine .inl ⟨fun _ _ _ hne ↦ absurd hfork hne, ?_⟩
            simp only [spawn, hpipe, hfork]
            exact ⟨h.count, h.slot, h.nodup⟩
        | some pid => exact follows_fdopen h hfresh hroom.1 hroom.2 hpipe hfork
  · obtain ⟨hparent, hstream, -⟩ := @refused p os command mode hroom
    rw [next_of_stream hstream, Parent.call, hparent]
    exact .inl ⟨fun hcount hmode ↦ absurd ⟨hcount, hmode⟩ hroom, h⟩

theorem follows_pclose {os : Option Int} {stream : FilePtr} (h : Stacked opens p) :
    Follows (NoHole p opens (.pclose os stream)) (Live.next p opens (.pclose os stream))
      (p.call (.pclose os stream)) := by
  by_cases hmem : stream ∈ opens.map fun e ↦ some e.1
  · obtain ⟨e, he, rfl⟩ := List.mem_map.mp hmem
    obtain ⟨i, hi, hlt⟩ := h.slotOf he
    have hfind := h.findSlot_eq hi
    have hnext : Live.next p opens (.pclose os (some e.1)) =
        opens.step (.pclose os (some e.1)) := by
      cases os <;> simp [Live.next, Live.step, myPclose, hfind, PcloseResult.Removed]
    rw [hnext]
    cases os with
    | none =>
        refine .inr ⟨fun hgood ↦ (hgood hmem).2 rfl, i, ?_, ?_⟩
        · simpa [Parent.call, myPclose, hfind, Parent.close] using hlt
        · simp [Parent.call, myPclose, hfind]
    | some stat =>
        by_cases hlast : some e.1 = opens.getLast?.map Prod.fst
        · obtain ⟨l₀, top, rfl⟩ : ∃ l₀ top, opens = l₀ ++ [top] :=
            ⟨_, _, (List.dropLast_append_getLast (List.ne_nil_of_mem he)).symm⟩
          have htop : e.1 = top.1 := by simpa using hlast
          rw [htop] at hlast hmem ⊢
          exact .inl ⟨fun _ ↦ ⟨hlast, Option.some_ne_none stat⟩, h.pclose_top stat⟩
        · obtain ⟨hcount, hstreams, -⟩ := h.pclose_call hi stat
          refine .inr ⟨fun hgood ↦ hlast (hgood hmem).1, i, ?_, by simp [hstreams]⟩
          have hne : (i : Nat) ≠ opens.length - 1 := by
            intro heq
            rw [List.getLast?_eq_getElem?, ← heq, hi] at hlast
            exact hlast rfl
          rw [hcount, h.count]
          rw [h.count] at hlt
          omega
  · have hfind := h.findSlot_eq_none_of_notMem hmem
    have hcall : p.call (.pclose os stream) = p := by simp [Parent.call, myPclose, hfind]
    have hnext : Live.next p opens (.pclose os stream) = opens := by
      simp [Live.next, myPclose, hfind, PcloseResult.Removed]
    rw [hcall, hnext]
    exact .inl ⟨fun hnot ↦ absurd hnot hmem, h⟩

/-- **The table is packed as long as no call makes a hole**, and has one ever after. -/
theorem follows_calls (hfresh : EachCall (fun pre c ↦ Fresh (openStreams pre) c) calls) :
    Follows (EachCall (fun pre c ↦ NoHole (table pre) (openStreams pre) c) calls)
      (openStreams calls) (table calls) := by
  induction calls using List.reverseRecOn with
  | nil => exact .inl ⟨eachCall_nil _, Stacked.init⟩
  | append_singleton calls c ih =>
      obtain ⟨hcalls, hc⟩ := eachCall_concat.mp hfresh
      rw [eachCall_concat, openStreams_concat, table_concat]
      rcases ih hcalls with ⟨hgood, hstacked⟩ | ⟨hbad, hhole⟩
      · have hstep : Follows (NoHole (table calls) (openStreams calls) c)
            (Live.next (table calls) (openStreams calls) c) ((table calls).call c) := by
          cases c with
          | popen os command mode => exact follows_popen hstacked hc
          | pclose os stream => exact follows_pclose hstacked
        exact hstep.imp (fun h ↦ ⟨⟨hgood, h.1⟩, h.2⟩) fun h ↦ ⟨fun hall ↦ h.1 hall.2, h.2⟩
      · exact .inr ⟨fun hall ↦ hbad hall.1, hasHole_call hhole c⟩

/-- **The child closes what the parent has open**, and applies `fileno` to no NULL, if and only if
there is no child because the table is full, or no call has made a hole. -/
theorem closesOpen_iff (calls : List Call)
    (hfresh : EachCall (fun pre c ↦ Fresh (openStreams pre) c) calls) :
    ClosesOpen (openStreams calls) (table calls) ↔ (table calls).popenCount = maxPopen ∨
      EachCall (fun pre c ↦ NoHole (table pre) (openStreams pre) c) calls := by
  constructor
  · intro hcloses
    refine or_iff_not_imp_left.mpr fun hroom ↦ ?_
    rcases follows_calls hfresh with ⟨hgood, -⟩ | ⟨-, hhole⟩
    · exact hgood
    · have hlt := Nat.lt_of_le_of_ne (table calls).popenCount_le hroom
      exact absurd hcloses (not_closesOpen_of_hasHole hhole hlt)
  · rintro (hfull | hgood)
    · exact closesOpen_of_full hfull
    · rcases follows_calls hfresh with ⟨-, hstacked⟩ | ⟨hbad, -⟩
      · exact closesOpen_of_stacked hstacked
      · exact absurd hgood hbad

theorem closesOpen_nested : ClosesOpen (openStreams nested) (table nested) :=
  (closesOpen_iff nested (by decide)).mpr (.inr (by decide))

/-- With the older of two streams closed, the child applies `fileno` to NULL. -/
theorem not_closesOpen_oldestFirst : ¬ ∀ calls,
    EachCall (fun pre c ↦ Fresh (openStreams pre) c) calls →
      ClosesOpen (openStreams calls) (table calls) := by
  intro h
  have hhole : HasHole (table oldestFirst) := ⟨⟨0, by decide⟩, by decide, by decide⟩
  exact not_closesOpen_of_hasHole hhole (by decide) (h oldestFirst (by decide))

end SysProg.Popen
