import Mathlib.Algebra.GroupWithZero.Nat
import Mathlib.Data.Fin.VecNotation
import SysProg.Lib.Lts
import SysProg.Lib.SemV
import SysProg.ShmDict.Record

/-!
# The shared-memory dictionary protocol

The client `lookup` of `SP_HW12/lookup6.c` and the loop of
`SP_HW12/shm_server.c`, any number of clients and one server, as a transition
system.  A state has the two semaphores with everybody's undo adjustments, the
shared record, and where each process is.  A step is one `semop`, one `strcpy` or
`strcmp` on the shared record, or the server's whole local lookup.

A program counter names the statement to be executed next, and a label the
statement executed.  Two labels of a client are choices of its surroundings:
`call w`, its `main` asking for the word `w`, and `exit`, its end between two
calls.  `die` is the `DIE` after a `semop` that failed; it exits too, so the
kernel undoes the adjustments.

The range of the adjustments is a parameter `lim`: results that do not depend on
it hold for a kernel without such a limit as well.

`next` is the executable model.  `Step` has one rule for each label, with everything
the label requires and does.  The two agree (`Step.of_step`, `Step.to_step`), and
proofs about runs use `Step` only.
-/

universe u

namespace SysProg.ShmDict

open SysProg.Lib

/-- There are two semaphores, and numerals name them. -/
scoped instance neZeroTwo : NeZero 2 := ⟨by decide⟩

/-! ## The programs -/

/-- The statements of the server loop. -/
inductive ServerPc where
  | wait | lookup | strcpy | notify | dead
deriving DecidableEq, Repr

/-- The statements of the client's `lookup`; `idle` is outside of it. -/
inductive ClientPc where
  | idle | grab | strcpyWord | alert | await | release | strcmp | strcpyText | exited
deriving DecidableEq, Repr

/-- What the server does: `lookup` with the code it returned. -/
inductive ServerOp where
  | wait | lookup (code : Code) | strcpy | notify | die
deriving DecidableEq, Repr

/-- What a client does. -/
inductive ClientOp where
  | call (word : Word) | grab | strcpyWord | alert | await | release | strcmp | strcpyText
  | exit | die
deriving DecidableEq

inductive Label (ι : Type u) where
  | server (op : ServerOp)
  | client (c : ι) (op : ClientOp)
deriving DecidableEq

/-- Mutex other clients. -/
def grabBuf : SemBuf (Fin 2) := ⟨0, -1, true⟩
/-- Release the mutex. -/
def releaseBuf : SemBuf (Fin 2) := ⟨0, 1, true⟩
/-- Wake up the server. -/
def alertBuf : SemBuf (Fin 2) := ⟨1, 2, true⟩
/-- Wait for the server. -/
def awaitBuf : SemBuf (Fin 2) := ⟨1, 0, false⟩
/-- The server's operation, used both to wait and to notify. -/
def waitBuf : SemBuf (Fin 2) := ⟨1, -1, true⟩

def ServerPc.sembuf : ServerPc → Option (SemBuf (Fin 2))
  | .wait | .notify => some waitBuf
  | _ => none

def ClientPc.sembuf : ClientPc → Option (SemBuf (Fin 2))
  | .grab => some grabBuf
  | .alert => some alertBuf
  | .await => some awaitBuf
  | .release => some releaseBuf
  | _ => none

/-- The text that stands for "no such word" in the shared record, `"XXXX"`. -/
def notFoundText : Text := ⟨[88, 88, 88, 88], by decide, by decide⟩

/-! ## States -/

/-- A client: where it is, its `*sought`, and what its last `lookup` returned. -/
structure Client where
  pc : ClientPc
  sought : Dictrec
  ret : Option Code
deriving DecidableEq

/-- The processes that use the semaphores: the server is `none`. -/
abbrev Proc (ι : Type u) := Option ι

structure State (ι : Type u) where
  sems : SemSet (Fin 2) (Proc ι)
  shm : Dictrec
  server : ServerPc
  client : ι → Client

variable {ι : Type u} [DecidableEq ι]

namespace State

def setClient (s : State ι) (c : ι) (x : Client) : State ι :=
  { s with client := Function.update s.client c x }

variable (s : State ι) (c : ι) (x : Client)

@[simp] theorem setClient_sems : (s.setClient c x).sems = s.sems := rfl
@[simp] theorem setClient_shm : (s.setClient c x).shm = s.shm := rfl
@[simp] theorem setClient_server : (s.setClient c x).server = s.server := rfl
@[simp] theorem setClient_client :
    (s.setClient c x).client = Function.update s.client c x := rfl

/-- Process `p` does the operation `b`. -/
def semApply (s : State ι) (p : Proc ι) (b : SemBuf (Fin 2)) : State ι :=
  { s with sems := s.sems.apply p b }

variable (p : Proc ι) (b : SemBuf (Fin 2))

@[simp] theorem semApply_sems : (s.semApply p b).sems = s.sems.apply p b := rfl
@[simp] theorem semApply_shm : (s.semApply p b).shm = s.shm := rfl
@[simp] theorem semApply_server : (s.semApply p b).server = s.server := rfl
@[simp] theorem semApply_client : (s.semApply p b).client = s.client := rfl

end State

/-! ## The step function -/

section

variable (lim : Int → Bool) (D : Dictionary)

/-- A `semop` that is carried out. -/
def semop (s : State ι) (p : Proc ι) (b : SemBuf (Fin 2)) : Option (State ι) :=
  match s.sems.semop lim p b with
  | .ok sems => some { s with sems }
  | _ => none

/-- Whether the `semop` at hand fails. -/
def fails (s : State ι) (p : Proc ι) : Option (SemBuf (Fin 2)) → Bool
  | none => false
  | some b => match s.sems.semop lim p b with
    | .erange => true
    | _ => false

/-- The end of process `p`, with the kernel's undo. -/
def exitProc (s : State ι) (p : Proc ι) : State ι := { s with sems := s.sems.exit p }

section

variable (s : State ι) (p : Proc ι)

@[simp] theorem exitProc_sems : (exitProc s p).sems = s.sems.exit p := rfl
@[simp] theorem exitProc_shm : (exitProc s p).shm = s.shm := rfl
@[simp] theorem exitProc_server : (exitProc s p).server = s.server := rfl
@[simp] theorem exitProc_client : (exitProc s p).client = s.client := rfl

end

/-- `lookup(sought, resource)` of `lookup6.c`, one statement of client `c`. -/
def clientNext (s : State ι) (c : ι) : ClientOp → Option (State ι)
  | .call word =>
      if (s.client c).pc = .idle then
        some (s.setClient c ⟨.grab, ⟨word, (s.client c).sought.text⟩, none⟩)
      else none
  | .grab =>
      if (s.client c).pc = .grab then
        (semop lim s (some c) grabBuf).map fun s ↦
          s.setClient c { s.client c with pc := .strcpyWord }
      else none
  | .strcpyWord =>
      if (s.client c).pc = .strcpyWord then
        some { s.setClient c { s.client c with pc := .alert } with
          shm := ⟨(s.client c).sought.word, s.shm.text⟩ }
      else none
  | .alert =>
      if (s.client c).pc = .alert then
        (semop lim s (some c) alertBuf).map fun s ↦ s.setClient c { s.client c with pc := .await }
      else none
  | .await =>
      if (s.client c).pc = .await then
        (semop lim s (some c) awaitBuf).map fun s ↦ s.setClient c { s.client c with pc := .release }
      else none
  | .release =>
      if (s.client c).pc = .release then
        (semop lim s (some c) releaseBuf).map fun s ↦
          s.setClient c { s.client c with pc := .strcmp }
      else none
  | .strcmp =>
      if (s.client c).pc = .strcmp then
        if s.shm.text ≠ notFoundText then
          some (s.setClient c { s.client c with pc := .strcpyText })
        else some (s.setClient c { s.client c with pc := .idle, ret := some .NOTFOUND })
      else none
  | .strcpyText =>
      if (s.client c).pc = .strcpyText then
        some (s.setClient c
          ⟨.idle, ⟨(s.client c).sought.word, s.shm.text⟩, some .FOUND⟩)
      else none
  | .exit =>
      if (s.client c).pc = .idle then
        some ((exitProc s (some c)).setClient c { s.client c with pc := .exited })
      else none
  | .die =>
      if fails lim s (some c) (s.client c).pc.sembuf then
        some ((exitProc s (some c)).setClient c { s.client c with pc := .exited })
      else none

/-- The main loop of `shm_server.c`, one statement. -/
def serverNext (s : State ι) : ServerOp → Option (State ι)
  | .wait =>
      if s.server = .wait then
        (semop lim s none waitBuf).map fun s ↦ { s with server := .lookup }
      else none
  | .lookup code =>
      if s.server = .lookup ∧ (lookup5 D.table s.shm).1 = code then
        let shm := (lookup5 D.table s.shm).2
        match code with
        | .FOUND => some { s with shm, server := .notify }
        | .NOTFOUND => some { s with shm, server := .strcpy }
        | .UNAVAIL => some { exitProc s none with shm, server := .dead }
      else none
  | .strcpy =>
      if s.server = .strcpy then
        some { s with shm := ⟨s.shm.word, notFoundText⟩, server := .notify }
      else none
  | .notify =>
      if s.server = .notify then
        (semop lim s none waitBuf).map fun s ↦ { s with server := .wait }
      else none
  | .die =>
      if fails lim s none s.server.sembuf then some { exitProc s none with server := .dead }
      else none

/-- One step of some process. -/
def next (s : State ι) : Label ι → Option (State ι)
  | .server op => serverNext lim D s op
  | .client c op => clientNext lim s c op

end

/-- The state the server sets up: semaphores `{1, 0}`, nothing to undo, clients
outside of `lookup`.  What the shared record and the clients' own hold is arbitrary. -/
structure Init (s : State ι) : Prop where
  sem0 : s.sems.semval 0 = 1
  sem1 : s.sems.semval 1 = 0
  semadj : ∀ p i, s.sems.semadj p i = 0
  server : s.server = .wait
  client : ∀ c, (s.client c).pc = .idle ∧ (s.client c).ret = none

/-- The dictionary system. -/
def shmDict (ι : Type u) [DecidableEq ι] (lim : Int → Bool) (D : Dictionary) :
    Lts (State ι) (Label ι) :=
  Lts.ofNext Init (next lim D)

/-! ## What a step does -/

/-- The rule of each label. -/
inductive Step (lim : Int → Bool) (D : Dictionary) (s : State ι) : Label ι → State ι → Prop
  | call {c : ι} (word : Word) (hpc : (s.client c).pc = .idle) :
      Step lim D s (.client c (.call word))
        (s.setClient c ⟨.grab, ⟨word, (s.client c).sought.text⟩, none⟩)
  | grab {c : ι} (hpc : (s.client c).pc = .grab) (hsem : s.sems.Ready grabBuf)
      (hrange : s.sems.InRange lim (some c) grabBuf) :
      Step lim D s (.client c .grab)
        ((s.semApply (some c) grabBuf).setClient c { s.client c with pc := .strcpyWord })
  | strcpyWord {c : ι} (hpc : (s.client c).pc = .strcpyWord) :
      Step lim D s (.client c .strcpyWord)
        { s.setClient c { s.client c with pc := .alert } with
          shm := ⟨(s.client c).sought.word, s.shm.text⟩ }
  | alert {c : ι} (hpc : (s.client c).pc = .alert) (hsem : s.sems.Ready alertBuf)
      (hrange : s.sems.InRange lim (some c) alertBuf) :
      Step lim D s (.client c .alert)
        ((s.semApply (some c) alertBuf).setClient c { s.client c with pc := .await })
  | await {c : ι} (hpc : (s.client c).pc = .await) (hsem : s.sems.Ready awaitBuf)
      (hrange : s.sems.InRange lim (some c) awaitBuf) :
      Step lim D s (.client c .await)
        ((s.semApply (some c) awaitBuf).setClient c { s.client c with pc := .release })
  | release {c : ι} (hpc : (s.client c).pc = .release) (hsem : s.sems.Ready releaseBuf)
      (hrange : s.sems.InRange lim (some c) releaseBuf) :
      Step lim D s (.client c .release)
        ((s.semApply (some c) releaseBuf).setClient c { s.client c with pc := .strcmp })
  | strcmpFound {c : ι} (hpc : (s.client c).pc = .strcmp) (htext : s.shm.text ≠ notFoundText) :
      Step lim D s (.client c .strcmp) (s.setClient c { s.client c with pc := .strcpyText })
  | strcmpNotFound {c : ι} (hpc : (s.client c).pc = .strcmp) (htext : s.shm.text = notFoundText) :
      Step lim D s (.client c .strcmp)
        (s.setClient c { s.client c with pc := .idle, ret := some .NOTFOUND })
  | strcpyText {c : ι} (hpc : (s.client c).pc = .strcpyText) :
      Step lim D s (.client c .strcpyText)
        (s.setClient c ⟨.idle, ⟨(s.client c).sought.word, s.shm.text⟩, some .FOUND⟩)
  | exit {c : ι} (hpc : (s.client c).pc = .idle) :
      Step lim D s (.client c .exit)
        ((exitProc s (some c)).setClient c { s.client c with pc := .exited })
  | clientDie {c : ι} {b : SemBuf (Fin 2)} (hpc : (s.client c).pc.sembuf = some b)
      (hsem : s.sems.Ready b) (hfail : ¬ s.sems.InRange lim (some c) b) :
      Step lim D s (.client c .die)
        ((exitProc s (some c)).setClient c { s.client c with pc := .exited })
  | wait (hpc : s.server = .wait) (hsem : s.sems.Ready waitBuf)
      (hrange : s.sems.InRange lim none waitBuf) :
      Step lim D s (.server .wait) { s.semApply none waitBuf with server := .lookup }
  | lookupFound {shm : Dictrec} (hpc : s.server = .lookup)
      (hlookup : lookup5 D.table s.shm = (.FOUND, shm)) :
      Step lim D s (.server (.lookup .FOUND)) { s with shm, server := .notify }
  | lookupNotFound (hpc : s.server = .lookup)
      (hlookup : lookup5 D.table s.shm = (.NOTFOUND, s.shm)) :
      Step lim D s (.server (.lookup .NOTFOUND)) { s with server := .strcpy }
  | strcpy (hpc : s.server = .strcpy) :
      Step lim D s (.server .strcpy)
        { s with shm := ⟨s.shm.word, notFoundText⟩, server := .notify }
  | notify (hpc : s.server = .notify) (hsem : s.sems.Ready waitBuf)
      (hrange : s.sems.InRange lim none waitBuf) :
      Step lim D s (.server .notify) { s.semApply none waitBuf with server := .wait }
  | serverDie {b : SemBuf (Fin 2)} (hpc : s.server.sembuf = some b)
      (hsem : s.sems.Ready b) (hfail : ¬ s.sems.InRange lim none b) :
      Step lim D s (.server .die) { exitProc s none with server := .dead }

variable {lim : Int → Bool} {D : Dictionary} {s t : State ι}

theorem semop_eq_some {p : Proc ι} {b : SemBuf (Fin 2)} :
    semop lim s p b = some t ↔ s.sems.Ready b ∧ s.sems.InRange lim p b ∧ t = s.semApply p b := by
  unfold semop
  cases h : s.sems.semop lim p b with
  | ok sems =>
      obtain ⟨hready, hrange, rfl⟩ := SemSet.semop_eq_ok.mp h
      simp [hready, hrange, State.semApply, eq_comm]
  | block =>
      simp only [reduceCtorEq, false_iff]
      rintro ⟨hready, hrange, -⟩
      exact absurd (h.symm.trans (SemSet.semop_eq_ok.mpr ⟨hready, hrange, rfl⟩)) (by simp)
  | erange =>
      obtain ⟨-, hrange⟩ := SemSet.semop_eq_erange.mp h
      simp [hrange]

theorem fails_iff {p : Proc ι} {b : Option (SemBuf (Fin 2))} :
    fails lim s p b = true ↔ ∃ b', b = some b' ∧ s.sems.Ready b' ∧ ¬ s.sems.InRange lim p b' := by
  cases b with
  | none => simp [fails]
  | some b =>
      have hiff : s.sems.semop lim p b = .erange ↔ s.sems.Ready b ∧ ¬ s.sems.InRange lim p b :=
        SemSet.semop_eq_erange
      cases h : s.sems.semop lim p b <;> simp_all [fails]

/-- A `semop` followed by a local move. -/
theorem map_semop_eq_some {p : Proc ι} {b : SemBuf (Fin 2)} {f : State ι → State ι} :
    (semop lim s p b).map f = some t ↔
      s.sems.Ready b ∧ s.sems.InRange lim p b ∧ f (s.semApply p b) = t := by
  rw [Option.map_eq_some_iff]
  constructor
  · rintro ⟨u, hu, rfl⟩
    obtain ⟨hready, hrange, rfl⟩ := semop_eq_some.mp hu
    exact ⟨hready, hrange, rfl⟩
  · rintro ⟨hready, hrange, rfl⟩
    exact ⟨_, semop_eq_some.mpr ⟨hready, hrange, rfl⟩, rfl⟩

theorem Step.of_clientNext {c : ι} {op : ClientOp} (h : clientNext lim s c op = some t) :
    Step lim D s (.client c op) t := by
  cases op with
  | call word =>
      obtain ⟨hpc, h⟩ := Option.ite_none_right_eq_some.mp h
      cases h
      exact .call word hpc
  | grab =>
      obtain ⟨hpc, h⟩ := Option.ite_none_right_eq_some.mp h
      obtain ⟨hsem, hrange, rfl⟩ := map_semop_eq_some.mp h
      exact .grab hpc hsem hrange
  | strcpyWord =>
      obtain ⟨hpc, h⟩ := Option.ite_none_right_eq_some.mp h
      cases h
      exact .strcpyWord hpc
  | alert =>
      obtain ⟨hpc, h⟩ := Option.ite_none_right_eq_some.mp h
      obtain ⟨hsem, hrange, rfl⟩ := map_semop_eq_some.mp h
      exact .alert hpc hsem hrange
  | await =>
      obtain ⟨hpc, h⟩ := Option.ite_none_right_eq_some.mp h
      obtain ⟨hsem, hrange, rfl⟩ := map_semop_eq_some.mp h
      exact .await hpc hsem hrange
  | release =>
      obtain ⟨hpc, h⟩ := Option.ite_none_right_eq_some.mp h
      obtain ⟨hsem, hrange, rfl⟩ := map_semop_eq_some.mp h
      exact .release hpc hsem hrange
  | strcmp =>
      obtain ⟨hpc, h⟩ := Option.ite_none_right_eq_some.mp h
      split at h
      · next htext => cases h; exact .strcmpFound hpc htext
      · next htext => cases h; exact .strcmpNotFound hpc (not_not.mp htext)
  | strcpyText =>
      obtain ⟨hpc, h⟩ := Option.ite_none_right_eq_some.mp h
      cases h
      exact .strcpyText hpc
  | exit =>
      obtain ⟨hpc, h⟩ := Option.ite_none_right_eq_some.mp h
      cases h
      exact .exit hpc
  | die =>
      obtain ⟨hfails, h⟩ := Option.ite_none_right_eq_some.mp h
      obtain ⟨b, hb, hready, hrange⟩ := fails_iff.mp hfails
      cases h
      exact .clientDie hb hready hrange

theorem Step.of_serverNext {op : ServerOp} (h : serverNext lim D s op = some t) :
    Step lim D s (.server op) t := by
  cases op with
  | wait =>
      obtain ⟨hpc, h⟩ := Option.ite_none_right_eq_some.mp h
      obtain ⟨hsem, hrange, rfl⟩ := map_semop_eq_some.mp h
      exact .wait hpc hsem hrange
  | lookup code =>
      obtain ⟨⟨hpc, hcode⟩, h⟩ := Option.ite_none_right_eq_some.mp h
      cases code with
      | FOUND => cases h; exact .lookupFound hpc (Prod.ext hcode rfl)
      | NOTFOUND =>
          have hshm := (lookup5_notfound (D := D) (Prod.ext hcode rfl)).1
          simp only [hshm, Option.some.injEq] at h
          subst h
          exact .lookupNotFound hpc (Prod.ext hcode hshm)
      | UNAVAIL => exact absurd hcode (lookup5_ne_unavail _ _)
  | strcpy =>
      obtain ⟨hpc, h⟩ := Option.ite_none_right_eq_some.mp h
      cases h
      exact .strcpy hpc
  | notify =>
      obtain ⟨hpc, h⟩ := Option.ite_none_right_eq_some.mp h
      obtain ⟨hsem, hrange, rfl⟩ := map_semop_eq_some.mp h
      exact .notify hpc hsem hrange
  | die =>
      obtain ⟨hfails, h⟩ := Option.ite_none_right_eq_some.mp h
      obtain ⟨b, hb, hready, hrange⟩ := fails_iff.mp hfails
      cases h
      exact .serverDie hb hready hrange

/-- Every step of the system follows one of the rules. -/
theorem Step.of_step {a : Label ι} (h : (shmDict ι lim D).step s a t) : Step lim D s a t := by
  cases a with
  | server op => exact .of_serverNext h
  | client c op => exact .of_clientNext h

/-- Every rule is a step of the system. -/
theorem Step.to_step {a : Label ι} (h : Step lim D s a t) : (shmDict ι lim D).step s a t := by
  show next lim D s a = some t
  cases h with
  | call word hpc => exact if_pos hpc
  | grab hpc hsem hrange | alert hpc hsem hrange | await hpc hsem hrange
  | release hpc hsem hrange =>
      exact (if_pos hpc).trans (map_semop_eq_some.mpr ⟨hsem, hrange, rfl⟩)
  | strcpyWord hpc => exact if_pos hpc
  | strcmpFound hpc htext => exact (if_pos hpc).trans (if_pos htext)
  | strcmpNotFound hpc htext => exact (if_pos hpc).trans (if_neg (not_not.mpr htext))
  | strcpyText hpc => exact if_pos hpc
  | exit hpc => exact if_pos hpc
  | clientDie hpc hsem hfail => exact if_pos (fails_iff.mpr ⟨_, hpc, hsem, hfail⟩)
  | wait hpc hsem hrange | notify hpc hsem hrange =>
      exact (if_pos hpc).trans (map_semop_eq_some.mpr ⟨hsem, hrange, rfl⟩)
  | lookupFound hpc hlookup =>
      refine (if_pos ⟨hpc, congrArg Prod.fst hlookup⟩).trans ?_
      simp only [hlookup]
  | lookupNotFound hpc hlookup =>
      refine (if_pos ⟨hpc, congrArg Prod.fst hlookup⟩).trans ?_
      simp only [hlookup]
  | strcpy hpc => exact if_pos hpc
  | serverDie hpc hsem hfail => exact if_pos (fails_iff.mpr ⟨_, hpc, hsem, hfail⟩)

/-! ## A small instance

A dictionary of two records and an initial state, in which to look at runs. -/

def wordA : Word := ⟨[97], by decide, by decide⟩
def wordB : Word := ⟨[98], by decide, by decide⟩
def textA : Text := ⟨[120], by decide, by decide⟩
def textB : Text := ⟨[121], by decide, by decide⟩
def emptyRec : Dictrec := ⟨⟨[], by decide, by decide⟩, ⟨[], by decide, by decide⟩⟩

/-- The dictionary `a: x`, `b: y`. -/
def twoWords : Dictionary := ⟨[⟨wordA, textA⟩, ⟨wordB, textB⟩], by decide⟩

/-- Clients that have made no lookup. -/
def start : State ι where
  sems := ⟨![1, 0], fun _ _ ↦ 0⟩
  shm := emptyRec
  server := .wait
  client _ := ⟨.idle, emptyRec, none⟩

omit [DecidableEq ι] in
theorem init_start : Init (start : State ι) :=
  ⟨rfl, rfl, fun _ _ ↦ rfl, rfl, fun _ ↦ ⟨rfl, rfl⟩⟩

end SysProg.ShmDict
