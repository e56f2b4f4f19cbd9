import SysProg.PipeFilter.Upper

/-!
# Parent and child that wait for each other

The parent wants an answer to each of its chunks before it goes on.  The child writes as
much as the piece is long as a string, which is nothing when it begins with a NUL.

* `Outstanding` says that there is an answer, or something to answer, whenever the parent
  waits for one; it holds in every run if no byte of the input is NUL.
* `round` is one byte that goes through the filter by itself, and `rounds` a beginning of
  the input without NULs.
* `noMutualWait_iff`: no run gets to a mutual wait if and only if the input has no NUL.
-/

namespace SysProg.PipeFilter

open SysProg.Lib

variable {input : List UInt8} {s t : State} {a : Op} {tr : List Op}

/-- A read of a pipe returns all there is, as far as it fits the buffer. -/
def Greedy (s : State) : Op → Prop
  | .readBack n => n = min BUFSIZ s.pipe2.length
  | .childRead n => n = min BUFSIZ s.pipe1.length
  | _ => True

/-- Both processes are waiting for the other one to write; the first pipe is open as long
as the parent has not ended. -/
structure MutualWait (s : State) : Prop where
  parent : s.parent = .readBack
  pipe2 : s.pipe2 = []
  child : s.child = .read
  pipe1 : s.pipe1 = []

/-- No run with such reads gets there. -/
def NoMutualWait (input : List UInt8) : Prop :=
  ∀ tr s, ((filter input).restrict Greedy).Run tr s → ¬ MutualWait s

instance (s : State) (a : Op) : Decidable (Greedy s a) :=
  match a with
  | .readBack _ | .childRead _ => inferInstanceAs (Decidable (_ = _))
  | .read _ | .write _ | .output | .convert _ | .childWrite _ => isTrue trivial

/-! ## Without NULs -/

/-- Something comes back, or will, when the parent waits for it. -/
structure Outstanding (s : State) : Prop where
  write : ∀ rest, s.parent = .write rest → rest ≠ []
  readBack : s.parent = .readBack → s.pipe2 ++ (s.child.rest ++ (s.child.piece ++ s.pipe1)) ≠ []

theorem upper_ne_nil {piece behind : List UInt8} (h : 0 ∉ piece) (hne : piece ≠ [])
    (hle : piece.length ≤ BUFSIZ) : upper piece behind ≠ [] := by
  rw [upper_eq h hle, List.map_append]
  exact List.append_ne_nil_of_left_ne_nil (by simpa using hne) _

theorem write_eq_readBack {rest : List UInt8}
    (h : (if rest = [] then ParentPc.readBack else .write rest) = .readBack) : rest = [] := by
  split at h
  · next hnil => exact hnil
  · cases h

theorem write_eq_write {rest rest' : List UInt8}
    (h : (if rest = [] then ParentPc.readBack else .write rest) = .write rest') : rest' ≠ [] := by
  split at h
  · cases h
  · next hne =>
      cases h
      exact hne

theorem Outstanding.step (h : Outstanding s) (hzero : 0 ∉ input) (hshape : Shape input s)
    (hs : Step s a t) : Outstanding t := by
  cases hs with
  | eof | readBack | output => exact ⟨by simp, by simp⟩
  | read hparent hn hread =>
      refine ⟨fun rest hrest ↦ ?_, by simp⟩
      cases hrest
      exact take_ne_nil hn hread.2
  | @write rest n hparent hwrite =>
      refine ⟨fun rest' hrest ↦ write_eq_write hrest, fun hback ↦ ?_⟩
      have hall := List.take_append_drop n rest
      rw [write_eq_readBack hback, List.append_nil] at hall
      have htake : rest.take n ≠ [] := hall.symm ▸ h.write rest hparent
      simp [htake]
  | childEof hchild hpipe hparent => exact ⟨by simp [hparent], by simp [hparent]⟩
  | childRead hchild hn hread =>
      refine ⟨h.write, fun hback ↦ ?_⟩
      have hne := h.readBack hback
      rw [hchild] at hne
      simpa [ChildPc.piece, ChildPc.rest] using hne
  | @convert piece hchild behind =>
      refine ⟨h.write, fun hback ↦ ?_⟩
      obtain ⟨hne, hle⟩ := hshape.piece piece hchild
      have hnotMem : 0 ∉ piece := by
        refine fun hmem ↦ hzero (hshape.suffix.subset (List.mem_append_left _ ?_))
        rw [hchild]
        exact hmem
      have hupper := @upper_ne_nil piece behind hnotMem hne hle
      simp [ChildPc.rest, hupper]
  | childWrite hchild hwrite =>
      refine ⟨h.write, fun hback ↦ ?_⟩
      have hne := h.readBack hback
      rw [hchild] at hne
      simp only [rest_childWrite, piece_childWrite, List.append_assoc, take_append_drop_append]
      exact hne

theorem outstanding (hzero : 0 ∉ input) (h : (filter input).Run tr s) : Outstanding s := by
  refine h.induction (P := fun _ s ↦ Outstanding s) (fun s hs ↦ ?_) fun _ _ _ _ hrun hout hs ↦ ?_
  · subst hs
    exact ⟨by simp [start], by simp [start]⟩
  · exact hout.step hzero (shape hrun) (.of_step hs)

theorem not_mutualWait (h : Outstanding s) : ¬ MutualWait s := by
  intro hwait
  refine h.readBack hwait.parent ?_
  rw [hwait.pipe2, hwait.child, hwait.pipe1]
  rfl

/-! ## Byte by byte -/

/-- Nothing is under way. -/
def idle (stdin stdout : List UInt8) : State := ⟨stdin, .read, [], .read, [], stdout⟩

/-- One byte goes through both pipes. -/
def round : List Op :=
  [.read 1, .write 1, .childRead 1, .convert [], .childWrite 1, .readBack 1, .output]

/-- A NUL gets as far as the child. -/
def lost : List Op := [.read 1, .write 1, .childRead 1, .convert [], .childWrite 0]

theorem upper_singleton {c : UInt8} (hc : c ≠ 0) : upper [c] [] = [toupper c] := by
  rw [upper_eq (by simpa using hc.symm) (by simp [BUFSIZ]), if_neg (by simp [BUFSIZ])]
  rfl

theorem upper_zero : upper [0] [] = [] := by
  have hnil : cstring ([] ++ 0 :: (List.replicate (BUFSIZ - 1) 0 ++ [])) = [] :=
    cstring_append_zero List.not_mem_nil _
  exact congrArg (List.map toupper) hnil

theorem exec_round {c : UInt8} (hc : c ≠ 0) (rest out : List UInt8) :
    Lts.exec (Lts.guarded next Greedy) (idle (c :: rest) out) round =
      some (idle rest (out ++ [toupper c])) := by
  simp [Lts.exec, Lts.guarded, next, idle, round, Greedy, CanRead, CanWrite, upper_singleton hc,
    BUFSIZ]

theorem exec_lost (rest out : List UInt8) :
    Lts.exec (Lts.guarded next Greedy) (idle (0 :: rest) out) lost =
      some ⟨rest, .readBack, [], .read, [], out⟩ := by
  simp [Lts.exec, Lts.guarded, next, idle, lost, Greedy, CanRead, CanWrite, upper_zero, BUFSIZ]

theorem path_rounds {bytes : List UInt8} (hzero : 0 ∉ bytes) (rest out : List UInt8) :
    ∃ tr, ((filter input).restrict Greedy).Path (idle (bytes ++ rest) out) tr
      (idle rest (out ++ bytes.map toupper)) := by
  induction bytes generalizing out with
  | nil => exact ⟨[], by simpa using Lts.Path.nil⟩
  | cons c bytes ih =>
      obtain ⟨hc, hbytes⟩ := not_or.mp (List.mem_cons.not.mp hzero)
      obtain ⟨tr, hpath⟩ := ih hbytes (out ++ [toupper c])
      rw [List.append_assoc] at hpath
      exact ⟨round ++ tr, (Lts.Path.of_exec_guarded (exec_round (Ne.symm hc) _ out)).trans hpath⟩

/-- **The two never wait for each other** if and only if there is no NUL in the input. -/
theorem noMutualWait_iff : NoMutualWait input ↔ 0 ∉ input := by
  constructor
  · intro hno hzero
    obtain ⟨bytes, rest, rfl, hbytes⟩ := List.eq_append_cons_of_mem hzero
    obtain ⟨tr, hrounds⟩ := @path_rounds (bytes ++ 0 :: rest) _ hbytes (0 :: rest) []
    have hpath := hrounds.trans (.of_exec_guarded (exec_lost rest _))
    exact hno _ _ ⟨_, init_start _, hpath⟩ ⟨rfl, rfl, rfl, rfl⟩
  · exact fun hzero tr s h ↦ not_mutualWait (outstanding hzero h.of_restrict)

/-- The input is a single NUL. -/
theorem not_noMutualWait_zero : ¬ NoMutualWait [0] := by
  intro hno
  exact hno lost _ (.of_exec_guarded (init_start [0]) (exec_lost [] [])) ⟨rfl, rfl, rfl, rfl⟩

end SysProg.PipeFilter
