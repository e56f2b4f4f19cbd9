import SysProg.PipeFilter.Protocol

/-!
# What comes out of the filter

The parent reads the second pipe once for every chunk it has written to the first, and
ends with its input.  What the child has not written by then, or what one read has not
taken, stays behind.

* `promised` is the output and what is still to come, wherever it is; a step keeps it if
  the child converts the whole of a piece and nothing else (`promised_step`).
* `Drained` says that nothing is left once the last chunk has been answered.
* `output_iff`: in a run in which no piece is converted beyond the end of the buffer, the
  output is the input in upper case if and only if there is no NUL in a piece, and the
  last read of the second pipe finds everything there and takes it (`Complete`).
-/

namespace SysProg.PipeFilter

open SysProg.Lib

variable {input : List UInt8} {s t : State} {a : Op} {tr : List Op}

/-! ## Where the bytes are -/

/-- What the parent has of its output. -/
def ParentPc.piece : ParentPc → List UInt8
  | .output piece => piece
  | _ => []

/-- What the parent has still to send to the child. -/
def ParentPc.rest : ParentPc → List UInt8
  | .write rest => rest
  | _ => []

/-- What the child has to convert. -/
def ChildPc.piece : ChildPc → List UInt8
  | .convert piece => piece
  | _ => []

/-- What the child has converted. -/
def ChildPc.rest : ChildPc → List UInt8
  | .write rest => rest
  | _ => []

/-- What has not been converted. -/
def raw (s : State) : List UInt8 := s.child.piece ++ (s.pipe1 ++ (s.parent.rest ++ s.stdin))

/-- What has been converted. -/
def converted (s : State) : List UInt8 :=
  s.stdout ++ (s.parent.piece ++ (s.pipe2 ++ s.child.rest))

/-- The output, and what is still to come. -/
def promised (s : State) : List UInt8 := converted s ++ (raw s).map toupper

theorem rest_write (rest : List UInt8) :
    (if rest = [] then ParentPc.readBack else .write rest).rest = rest := by
  split
  · next h => exact h.symm
  · rfl

theorem piece_write (rest : List UInt8) :
    (if rest = [] then ParentPc.readBack else .write rest).piece = [] := by
  split <;> rfl

theorem write_ne_done (rest : List UInt8) :
    (if rest = [] then ParentPc.readBack else .write rest) ≠ .done := by
  split <;> simp

theorem rest_childWrite (rest : List UInt8) :
    (if rest = [] then ChildPc.read else .write rest).rest = rest := by
  split
  · next h => exact h.symm
  · rfl

theorem piece_childWrite (rest : List UInt8) :
    (if rest = [] then ChildPc.read else .write rest).piece = [] := by
  split <;> rfl

theorem childWrite_ne_convert (rest piece : List UInt8) :
    (if rest = [] then ChildPc.read else .write rest) ≠ .convert piece := by
  split <;> simp

theorem take_append_drop_append (n : Nat) (l rest : List UInt8) :
    l.take n ++ (l.drop n ++ rest) = l ++ rest := by
  rw [← List.append_assoc, List.take_append_drop]

theorem take_ne_nil {l : List UInt8} {n : Nat} (hn : n ≠ 0) (h : n ≤ l.length) : l.take n ≠ [] := by
  have hlen : (l.take n).length = n := List.length_take_of_le h
  exact List.ne_nil_of_length_pos (hlen.symm ▸ Nat.pos_of_ne_zero hn)

/-- Only the child that converts a piece changes what has been converted. -/
theorem moved_step (hs : Step s a t) (ha : ∀ behind, a ≠ .convert behind) :
    converted t = converted s ∧ raw t = raw s := by
  cases hs with
  | eof hparent | read hparent | output hparent =>
      simp [converted, raw, hparent, ParentPc.piece, ParentPc.rest]
  | write hparent hwrite =>
      simp only [converted, raw, hparent, rest_write, piece_write]
      simp [ParentPc.piece, ParentPc.rest, take_append_drop_append]
  | readBack hparent hread hn =>
      simp [converted, raw, hparent, ParentPc.piece, ParentPc.rest, take_append_drop_append]
  | childEof hchild => simp [converted, raw, hchild, ChildPc.piece, ChildPc.rest]
  | childRead hchild hn hread =>
      simp [converted, raw, hchild, ChildPc.piece, ChildPc.rest, take_append_drop_append]
  | convert hchild behind => exact absurd rfl (ha behind)
  | childWrite hchild hwrite =>
      simp only [converted, raw, hchild, rest_childWrite, piece_childWrite]
      simp [ChildPc.piece, ChildPc.rest]

/-- The child converts its piece. -/
theorem converted_convert {behind : List UInt8} (hs : Step s (.convert behind) t) :
    converted t = converted s ++ upper s.child.piece behind ∧ raw s = s.child.piece ++ raw t := by
  cases hs with
  | convert hchild behind => simp [converted, raw, hchild, ChildPc.piece, ChildPc.rest]

/-! ## Facts about every run -/

/-- The pieces that are read, and where the input has ended. -/
structure Shape (input : List UInt8) (s : State) : Prop where
  piece : ∀ p, s.child = .convert p → p ≠ [] ∧ p.length ≤ BUFSIZ
  done : s.parent = .done → s.stdin = []
  zero_notMem : 0 ∉ converted s
  suffix : raw s <:+ input

theorem Shape.step (h : Shape input s) (hs : Step s a t) : Shape input t := by
  have hpiece : ∀ p, t.child = .convert p → p ≠ [] ∧ p.length ≤ BUFSIZ := by
    cases hs with
    | childEof | convert => simp
    | @childRead n hchild hn hread =>
        intro p hp
        cases hp
        have hlen : (s.pipe1.take n).length = n := List.length_take_of_le hread.2
        exact ⟨take_ne_nil hn hread.2, hlen.le.trans hread.1⟩
    | childWrite => exact fun p hp ↦ absurd hp (childWrite_ne_convert _ p)
    | _ => exact h.piece
  have hdone : t.parent = .done → t.stdin = [] := by
    cases hs with
    | eof hparent hstdin => exact fun _ ↦ hstdin
    | read | readBack | output => simp
    | write => exact fun hp ↦ absurd hp (write_ne_done _)
    | _ => exact h.done
  by_cases ha : ∃ behind, a = .convert behind
  · obtain ⟨behind, rfl⟩ := ha
    obtain ⟨hconverted, hraw⟩ := converted_convert hs
    refine ⟨hpiece, hdone, ?_, ?_⟩
    · rw [hconverted, List.mem_append, not_or]
      exact ⟨h.zero_notMem, zero_notMem_upper _ _⟩
    · exact (List.suffix_append _ _).trans (hraw ▸ h.suffix)
  · obtain ⟨hconverted, hraw⟩ := moved_step hs fun behind heq ↦ ha ⟨behind, heq⟩
    exact ⟨hpiece, hdone, hconverted ▸ h.zero_notMem, hraw ▸ h.suffix⟩

theorem shape (h : (filter input).Run tr s) : Shape input s := by
  refine h.induction (P := fun _ s ↦ Shape input s) (fun s hs ↦ ?_) fun _ _ _ _ _ hshape hs ↦ ?_
  · subst hs
    exact ⟨by simp [start], by simp [start],
      by simp [converted, start, ParentPc.piece, ChildPc.rest], List.suffix_refl _⟩
  · exact hshape.step (.of_step hs)

/-! ## Complete answers -/

/-- The child does not convert anything behind its buffer. -/
def NoOverrun (s : State) : Op → Prop
  | .convert behind => s.child.piece.length = BUFSIZ → cstring behind = []
  | _ => True

/-- The child converts pieces without NULs.  When nothing is left of its input, the parent
takes all there is, and nothing is on its way to the second pipe. -/
def Complete (s : State) : Op → Prop
  | .convert _ => 0 ∉ s.child.piece
  | .readBack n =>
      s.stdin = [] → s.pipe1 = [] ∧ s.child.piece = [] ∧ s.child.rest = [] ∧ n = s.pipe2.length
  | _ => True

/-- A piece that is converted as it should be. -/
theorem promised_step (h : Shape input s) (hs : Step s a t) (hover : NoOverrun s a)
    (hcomplete : Complete s a) : promised t = promised s := by
  by_cases ha : ∃ behind, a = .convert behind
  · obtain ⟨behind, rfl⟩ := ha
    obtain ⟨hconverted, hraw⟩ := converted_convert hs
    have hlen : s.child.piece.length ≤ BUFSIZ := by
      cases hs with
      | convert hchild =>
          rw [hchild]
          exact (h.piece _ hchild).2
    have hbehind : (if s.child.piece.length = BUFSIZ then cstring behind else []) = [] := by
      split
      · next hfull => exact hover hfull
      · rfl
    rw [promised, hconverted, upper_eq hcomplete hlen, hbehind, List.append_nil, promised, hraw,
      List.map_append, List.append_assoc]
  · obtain ⟨hconverted, hraw⟩ := moved_step hs fun behind heq ↦ ha ⟨behind, heq⟩
    rw [promised, promised, hconverted, hraw]

/-- The parent has an answer to everything it has sent, and has not read anything since. -/
def ParentPc.answered : ParentPc → Bool
  | .read | .output _ | .done => true
  | .write _ | .readBack => false

/-- Nothing is left when the last chunk has been answered. -/
def Drained (s : State) : Prop :=
  s.stdin = [] → s.parent.answered = true →
    s.pipe1 = [] ∧ s.child.piece = [] ∧ s.child.rest = [] ∧ s.pipe2 = []

theorem answered_write (rest : List UInt8) :
    (if rest = [] then ParentPc.readBack else .write rest).answered = false := by
  split <;> rfl

theorem Drained.step (h : Drained s) (hshape : Shape input s) (hs : Step s a t)
    (hcomplete : Complete s a) : Drained t := by
  cases hs with
  | eof hparent | output hparent => exact fun hstdin _ ↦ h hstdin (by rw [hparent]; rfl)
  | read => exact fun _ hans ↦ by simp [ParentPc.answered] at hans
  | write hparent hwrite =>
      exact fun _ hans ↦ absurd (hans.symm.trans (answered_write _)) (by decide)
  | readBack hparent hread hn =>
      intro hstdin _
      obtain ⟨hpipe1, hpiece, hrest, rfl⟩ := hcomplete hstdin
      exact ⟨hpipe1, hpiece, hrest, List.drop_length⟩
  | childEof hchild =>
      intro hstdin hans
      obtain ⟨hpipe1, -, -, hpipe2⟩ := h hstdin hans
      exact ⟨hpipe1, rfl, rfl, hpipe2⟩
  | childRead hchild hn hread =>
      intro hstdin hans
      obtain ⟨hpipe1, -⟩ := h hstdin hans
      have hle := hread.2
      rw [hpipe1] at hle
      exact absurd (Nat.le_zero.mp hle) hn
  | @convert piece hchild behind =>
      intro hstdin hans
      obtain ⟨-, hpiece, -⟩ := h hstdin hans
      rw [hchild] at hpiece
      exact absurd hpiece (hshape.piece piece hchild).1
  | @childWrite rest n hchild hwrite =>
      intro hstdin hans
      obtain ⟨hpipe1, -, hrest, hpipe2⟩ := h hstdin hans
      rw [hchild] at hrest
      change rest = [] at hrest
      subst hrest
      simp [hpipe1, hpipe2, ChildPc.piece, ChildPc.rest]

/-- In a run whose steps are all complete, nothing gets lost. -/
theorem kept_of_complete (h : (((filter input).restrict NoOverrun).restrict Complete).Run tr s) :
    promised s = input.map toupper ∧ Drained s := by
  refine h.induction (P := fun _ s ↦ promised s = input.map toupper ∧ Drained s)
    (fun s hs ↦ ?_) ?_
  · have hs : s = start input := hs
    subst hs
    exact ⟨rfl, fun _ _ ↦ ⟨rfl, rfl, rfl, rfl⟩⟩
  · rintro tr s a t hrun ⟨hpromised, hdrained⟩ ⟨hcomplete, hover, hs⟩
    have hshape := shape hrun.of_restrict.of_restrict
    have hs := Step.of_step hs
    exact ⟨(promised_step hshape hs hover hcomplete).trans hpromised,
      hdrained.step hshape hs hcomplete⟩

/-- When the parent has ended, what is left is what has not come out. -/
theorem stdout_of_drained (hshape : Shape input s) (hdone : s.parent = .done)
    (hpromised : promised s = input.map toupper) (hdrained : Drained s) :
    s.stdout = input.map toupper := by
  have hstdin := hshape.done hdone
  obtain ⟨hpipe1, hpiece, hrest, hpipe2⟩ := hdrained hstdin (by rw [hdone]; rfl)
  rw [← hpromised]
  simp [promised, converted, raw, hdone, ParentPc.piece, ParentPc.rest, hstdin, hpipe1, hpiece,
    hrest, hpipe2]

/-! ## Answers that are not complete -/

/-- The parent has read the last answer, and it was too short. -/
structure Short (input : List UInt8) (s : State) : Prop where
  stdin : s.stdin = []
  answered : s.parent.answered = true
  ne : s.stdout ++ s.parent.piece ≠ input.map toupper

theorem Short.step (h : Short input s) (hs : Step s a t) : Short input t := by
  have hanswered := h.answered
  have hne := h.ne
  cases hs with
  | eof hparent =>
      rw [hparent] at hne
      exact ⟨h.stdin, rfl, hne⟩
  | read hparent hn hread =>
      have hle := hread.2
      rw [h.stdin] at hle
      exact absurd (Nat.le_zero.mp hle) hn
  | write hparent | readBack hparent =>
      rw [hparent] at hanswered
      cases hanswered
  | output hparent =>
      rw [hparent] at hne
      exact ⟨h.stdin, rfl, by simpa [ParentPc.piece] using hne⟩
  | _ => exact ⟨h.stdin, hanswered, hne⟩

/-- The first answer that is not complete is too short. -/
theorem Short.of_readBack {n : Nat} (hs : Step s (.readBack n) t)
    (hpromised : promised s = input.map toupper) (hnot : ¬ Complete s (.readBack n)) :
    Short input t := by
  cases hs with
  | readBack hparent hread hn =>
      obtain ⟨hstdin, hleft⟩ := Classical.not_imp.mp hnot
      refine ⟨hstdin, rfl, fun heq ↦ hleft ?_⟩
      rw [← hpromised] at heq
      have hlen := congrArg List.length heq
      simp only [promised, converted, raw, hparent, ParentPc.piece, ParentPc.rest, hstdin,
        List.length_append, List.length_map, List.length_nil, List.length_take_of_le hread.2]
        at hlen
      have hle := hread.2
      refine ⟨List.length_eq_zero_iff.mp ?_, List.length_eq_zero_iff.mp ?_,
        List.length_eq_zero_iff.mp ?_, ?_⟩ <;> omega

/-- With no NUL in the input, all steps have been complete or an answer was too short. -/
theorem complete_or_short (hzero : 0 ∉ input) (h : ((filter input).restrict NoOverrun).Run tr s) :
    (((filter input).restrict NoOverrun).restrict Complete).Run tr s ∨ Short input s := by
  refine Lts.Run.induction (M := (filter input).restrict NoOverrun) (P := fun tr s ↦
    (((filter input).restrict NoOverrun).restrict Complete).Run tr s ∨ Short input s)
    (fun s hs ↦ .inl (.init hs)) ?_ h
  rintro tr s a t hrun (hcomplete | hshort) hs
  · by_cases ha : Complete s a
    · exact .inl (hcomplete.snoc ⟨ha, hs⟩)
    · have hstep := Step.of_step hs.2
      cases a with
      | convert behind =>
          refine absurd (fun hmem ↦ hzero ?_) ha
          exact (shape hrun.of_restrict).suffix.subset (List.mem_append_left _ hmem)
      | readBack n => exact .inr (.of_readBack hstep (kept_of_complete hcomplete).1 ha)
      | _ => exact absurd trivial ha
  · exact .inr (hshort.step (.of_step hs.2))

theorem zero_notMem_of_stdout (hshape : Shape input s) (h : s.stdout = input.map toupper) :
    0 ∉ input := by
  intro hzero
  have hmem : 0 ∈ s.stdout := h ▸ List.mem_map.mpr ⟨0, hzero, rfl⟩
  exact hshape.zero_notMem (List.mem_append_left _ hmem)

/-- **The output is the input in upper case** if and only if every step is complete, where
no piece is converted beyond the end of the buffer. -/
theorem output_iff (h : ((filter input).restrict NoOverrun).Run tr s) (hdone : s.parent = .done) :
    s.stdout = input.map toupper ↔
      (((filter input).restrict NoOverrun).restrict Complete).Run tr s := by
  have hshape := shape h.of_restrict
  constructor
  · intro heq
    rcases complete_or_short (zero_notMem_of_stdout hshape heq) h with hcomplete | hshort
    · exact hcomplete
    · have hne := hshort.ne
      rw [hdone] at hne
      exact absurd heq (by simpa [ParentPc.piece] using hne)
  · intro hcomplete
    obtain ⟨hpromised, hdrained⟩ := kept_of_complete hcomplete
    exact stdout_of_drained hshape hdone hpromised hdrained

/-! ## Two chunks and a short answer -/

instance (s : State) (a : Op) : Decidable (NoOverrun s a) :=
  match a with
  | .convert _ => inferInstanceAs (Decidable (_ → _))
  | .read _ | .write _ | .readBack _ | .output | .childRead _ | .childWrite _ => isTrue trivial

/-- The parent, and what it has written. -/
def written (s : State) : ParentPc × List UInt8 := (s.parent, s.stdout)

/-- `ab` is read and answered at once. -/
def atOnce : List Op :=
  [.read 2, .write 2, .childRead 2, .convert [], .childWrite 2, .readBack 2, .output, .read 0]

/-- The child reads it in two pieces, and the parent does not wait for the second. -/
def inPieces : List Op :=
  [.read 2, .write 2, .childRead 1, .convert [], .childWrite 1, .readBack 1, .output, .read 0]

theorem exists_atOnce : ∃ s, ((filter [97, 98]).restrict NoOverrun).Run atOnce s ∧
    written s = (.done, [65, 66]) :=
  Lts.exists_restrict_run_of_exec (init_start _) atOnce written _ (by decide)

theorem output_atOnce : ∃ s, ((filter [97, 98]).restrict NoOverrun).Run atOnce s ∧
    s.parent = .done ∧ s.stdout = [97, 98].map toupper ∧
    (((filter [97, 98]).restrict NoOverrun).restrict Complete).Run atOnce s := by
  obtain ⟨s, hrun, hs⟩ := exists_atOnce
  have hdone : s.parent = .done := congrArg Prod.fst hs
  have hout : s.stdout = _ := congrArg Prod.snd hs
  have hupper : s.stdout = [97, 98].map toupper := hout.trans (by decide)
  exact ⟨s, hrun, hdone, hupper, (output_iff hrun hdone).mp hupper⟩

theorem exists_inPieces : ∃ s, (filter [97, 98]).Run inPieces s ∧
    written s = (.done, [65]) :=
  Lts.exists_run_of_exec (init_start _) inPieces written _ (by decide)

/-- The parent ends without having written the `B`. -/
theorem not_output_inPieces : ∃ s, (filter [97, 98]).Run inPieces s ∧ s.parent = .done ∧
    s.stdout = [65] ∧ s.stdout ≠ [97, 98].map toupper := by
  obtain ⟨s, hrun, hs⟩ := exists_inPieces
  have hdone : s.parent = .done := congrArg Prod.fst hs
  have hout : s.stdout = _ := congrArg Prod.snd hs
  exact ⟨s, hrun, hdone, hout, by rw [hout]; decide⟩

end SysProg.PipeFilter
