import SysProg.Lib.Ring
import SysProg.SigRing.Counting

/-!
# What the handler finds in a slot

The producer writes the text of a message to its slot, then its number, and only then it
sends the signals.  A handler takes the number for a sign that the text is there.

* `Slots` says what the numbers and texts in the ring are: those of the last `b` messages,
  but for the text of the slot that is being updated.
* `intact_iff`: the handlers that count a message as received find its text if and only if
  none of them runs between the two writes to its slot.
* `overrun`: when the update is a single step, a handler counts message `i` as received if
  and only if message `i + b` has not been written.
-/

namespace SysProg.SigRing

open SysProg.Lib

variable {P : Args} {s t : Broadcast} {a : Op} {tr : List Op}

/-! ## Texts -/

theorem message_eq {i : Nat} (h : (i : Int) ≤ INT_MAX) :
    message i = "This is message ".toList ++ Nat.toDigits 10 i := by
  have hdigits : (Nat.toDigits 10 i).length ≤ 10 := by
    rw [Nat.length_toDigits_le_iff (by decide) (by decide)]
    unfold INT_MAX at h
    omega
  refine List.take_of_length_le ?_
  have hprefix : "This is message ".toList.length = 16 := rfl
  rw [List.length_append, hprefix, bufSize]
  omega

/-- The text tells the messages apart. -/
theorem message_inj {i j : Nat} (hi : (i : Int) ≤ INT_MAX) (hj : (j : Int) ≤ INT_MAX)
    (h : message i = message j) : i = j := by
  rw [message_eq hi, message_eq hj] at h
  have hdigits := congrArg (Nat.ofDigitChars 10 · 0) (List.append_cancel_left h)
  simpa using hdigits

/-! ## The ring -/

/-- How many messages have been given their number. -/
def numbered (s : Broadcast) : Nat :=
  match s.pc with
  | .sigqueue _ => s.i + 1
  | _ => s.i

/-- The numbers in the slots. -/
def numbers (s : Broadcast) (j : Nat) : Int := (s.shmp j).msg_num

/-- The texts in the slots. -/
def texts (s : Broadcast) (j : Nat) : List Char := (s.shmp j).buf

theorem numbers_setSlot (s : Broadcast) (P : Args) (x : Shmseg) :
    numbers (s.setSlot P x) = Function.update (numbers s) (s.i % P.b) x.msg_num := by
  funext j
  exact Function.apply_update (fun _ ↦ Shmseg.msg_num) s.shmp _ x j

theorem texts_setSlot (s : Broadcast) (P : Args) (x : Shmseg) :
    texts (s.setSlot P x) = Function.update (texts s) (s.i % P.b) x.buf := by
  funext j
  exact Function.apply_update (fun _ ↦ Shmseg.buf) s.shmp _ x j

/-- The slot of message `x` is being updated: its text is that of another one. -/
def Torn (P : Args) (s : Broadcast) (x : Nat) : Prop := s.pc = .msg_num ∧ s.i % P.b = x % P.b

/-- What is in the slots after the steps `tr`. -/
structure Slots (P : Args) (tr : List Op) (s : Broadcast) : Prop where
  small : (s.i : Int) ≤ INT_MAX
  mem : ∀ x, .msg_num x ∈ tr ↔ x < numbered s
  recent : Recent P.b (numbered s) (numbers s)
  text : ∀ x < numbered s, numbered s ≤ x + P.b → ¬ Torn P s x → texts s (x % P.b) = message x
  next : s.pc = .msg_num → texts s (s.i % P.b) = message s.i

theorem mem_concat_iff {x : Nat} (h : ∀ i, a ≠ .msg_num i) :
    .msg_num x ∈ tr ++ [a] ↔ .msg_num x ∈ tr := by
  rw [List.mem_append, List.mem_singleton]
  exact or_iff_left fun heq ↦ h x heq.symm

/-- A step that does not write to a slot. -/
theorem Slots.skip (h : Slots P tr s) (ha : ∀ i, a ≠ .msg_num i) (hsmall : (t.i : Int) ≤ INT_MAX)
    (hshmp : t.shmp = s.shmp) (hnumbered : numbered t = numbered s) (hs : s.pc ≠ .msg_num)
    (ht : t.pc ≠ .msg_num) : Slots P (tr ++ [a]) t := by
  have hnumbers : numbers t = numbers s := by
    unfold numbers
    rw [hshmp]
  have htexts : texts t = texts s := by
    unfold texts
    rw [hshmp]
  refine ⟨hsmall, fun x ↦ ?_, ?_, fun x hx hle _ ↦ ?_, fun hpc ↦ absurd hpc ht⟩
  · rw [mem_concat_iff ha, hnumbered]
    exact h.mem x
  · rw [hnumbered, hnumbers]
    exact h.recent
  · rw [hnumbered] at hx hle
    rw [htexts]
    exact h.text x hx hle fun htorn ↦ hs htorn.1

/-- A step of a consumer. -/
theorem Slots.consume (h : Slots P tr s) (ha : ∀ i, a ≠ .msg_num i) (hi : t.i = s.i)
    (hpc : t.pc = s.pc) (hshmp : t.shmp = s.shmp) : Slots P (tr ++ [a]) t := by
  cases t with
  | mk i pc shmp shmp_cnt consumer =>
      cases hi
      cases hpc
      cases hshmp
      exact ⟨h.small, fun x ↦ (mem_concat_iff ha).trans (h.mem x), h.recent, h.text, h.next⟩

/-- The text of the next message is written. -/
theorem Slots.snprintf (h : Slots P tr s) (hpc : s.pc = .snprintf) :
    Slots P (tr ++ [.snprintf])
      { s.setSlot P { s.slot P s.i with buf := message s.i } with pc := .msg_num } := by
  have hnumbered : numbered s = s.i := by rw [numbered, hpc]
  have hnumbers : numbers (s.setSlot P { s.slot P s.i with buf := message s.i }) = numbers s := by
    rw [numbers_setSlot]
    exact Function.update_eq_self _ _
  have htexts := texts_setSlot s P { s.slot P s.i with buf := message s.i }
  have hmem := h.mem
  have hrecent := h.recent
  have htext := h.text
  rw [hnumbered] at hmem hrecent htext
  refine ⟨h.small, fun x ↦ (mem_concat_iff (by simp)).trans (hmem x), ?_, fun x hx hle htorn ↦ ?_,
    fun _ ↦ ?_⟩
  · change Recent P.b s.i (numbers (s.setSlot P _))
    rwa [hnumbers]
  · change texts (s.setSlot P _) (x % P.b) = message x
    have hne : x % P.b ≠ s.i % P.b := fun heq ↦ htorn ⟨rfl, heq.symm⟩
    rw [htexts, Function.update_of_ne hne]
    exact htext x hx hle fun htorn ↦ by simp [Torn, hpc] at htorn
  · change texts (s.setSlot P _) (s.i % P.b) = message s.i
    rw [htexts, Function.update_self]

/-- And then its number. -/
theorem Slots.msg_num (h : Slots P tr s) (hpc : s.pc = .msg_num) :
    Slots P (tr ++ [.msg_num s.i])
      { s.setSlot P { s.slot P s.i with msg_num := s.i } with pc := .sigqueue 0 } := by
  have hnumbered : numbered s = s.i := by rw [numbered, hpc]
  have hnumbers := numbers_setSlot s P { s.slot P s.i with msg_num := s.i }
  have htexts : texts (s.setSlot P { s.slot P s.i with msg_num := s.i }) = texts s := by
    rw [texts_setSlot]
    exact Function.update_eq_self _ _
  have hmem := h.mem
  have hrecent := h.recent
  have htext := h.text
  rw [hnumbered] at hmem hrecent htext
  refine ⟨h.small, fun x ↦ ?_, ?_, fun x hx hle _ ↦ ?_, by simp⟩
  · change _ ↔ x < s.i + 1
    rw [List.mem_append, hmem, List.mem_singleton, Op.msg_num.injEq, Nat.lt_succ_iff_lt_or_eq]
  · change Recent P.b (s.i + 1) (numbers (s.setSlot P _))
    rw [hnumbers]
    exact hrecent.write
  · change x < s.i + 1 at hx
    change s.i + 1 ≤ x + P.b at hle
    change texts (s.setSlot P _) (x % P.b) = message x
    rw [htexts]
    rcases Nat.lt_succ_iff_lt_or_eq.mp hx with hx | rfl
    · exact htext x hx ((Nat.le_succ _).trans hle) fun htorn ↦ Recent.mod_ne hx hle htorn.2.symm
    · exact h.next hpc

theorem Slots.step (h : Slots P tr s) (hs : BroadcastStep P s a t) : Slots P (tr ++ [a]) t := by
  cases hs with
  | snprintf hpc hi => exact h.snprintf hpc
  | msg_num hpc => exact h.msg_num hpc
  | sigqueue hpc hj =>
      exact h.skip (by simp) h.small rfl (by rw [numbered, numbered, hpc]; rfl) (by simp [hpc])
        (by simp)
  | next hpc hi =>
      have hsmall : ((s.i + 1 : Nat) : Int) ≤ INT_MAX := by omega
      exact h.skip (by simp) hsmall rfl (by rw [numbered, numbered, hpc]) (by simp [hpc])
        (by simp)
  | finish hpc hi =>
      exact h.skip (by simp) h.small rfl (by rw [numbered, numbered, hpc]) (by simp [hpc])
        (by simp)
  | deliver | test | load | store => exact h.consume (by simp) rfl rfl rfl

theorem slots (h : (broadcast P).Run tr s) : Slots P tr s := by
  refine h.induction (P := Slots P) (fun s hs ↦ ?_) fun _ _ _ _ _ hslots hs ↦ ?_
  · have hnumbered : numbered s = 0 := by rw [numbered, hs.pc, hs.i]
    refine ⟨by simp [hs.i, INT_MAX], by simp [hnumbered], ?_, by simp [hnumbered], by simp [hs.pc]⟩
    rw [hnumbered]
    exact Recent.zero _ _
  · exact hslots.step (.of_step hs)

/-! ## Signals -/

/-- A consumer has only been sent, and only handles, messages that have their number. -/
def Announced (n : Nat) (x : Consumer) : Prop :=
  (∀ v, x.pending = some v → v < n) ∧ ∀ v, x.running = some (.test v) → v < n

theorem Announced.mono {n m : Nat} {x : Consumer} (h : Announced n x) (hnm : n ≤ m) :
    Announced m x :=
  ⟨fun v hv ↦ (h.1 v hv).trans_le hnm, fun v hv ↦ (h.2 v hv).trans_le hnm⟩

theorem Announced.signal {n i : Nat} {x : Consumer} (h : Announced n x) (hi : i < n) :
    Announced n (x.signal i) := by
  refine ⟨fun v hv ↦ ?_, h.2⟩
  cases hp : x.pending with
  | none =>
      rw [Consumer.signal, hp] at hv
      exact Option.some.inj hv ▸ hi
  | some w =>
      rw [Consumer.signal, hp] at hv
      exact Option.some.inj hv ▸ h.1 w hp

/-- A handler that has got to an increment compares nothing. -/
theorem Announced.setRunning {n : Nat} {x : Consumer} (h : Announced n x) {r : Option Handler}
    (hr : ∀ v, r ≠ some (.test v)) : Announced n { x with running := r } :=
  ⟨h.1, fun v hv ↦ absurd hv (hr v)⟩

theorem announced_setConsumer {n c : Nat} {x : Consumer} (h : ∀ c, Announced n (s.consumer c))
    (hx : Announced n x) : ∀ d, Announced n ((s.setConsumer c x).consumer d) := by
  rw [Broadcast.setConsumer, Function.forall_update_iff s.consumer fun _ ↦ Announced n]
  exact ⟨hx, fun d _ ↦ h d⟩

theorem announced_step (h : ∀ c, Announced (numbered s) (s.consumer c))
    (hs : BroadcastStep P s a t) : ∀ c, Announced (numbered t) (t.consumer c) := by
  cases hs with
  | snprintf hpc hi | next hpc hi | finish hpc hi =>
      rw [numbered, hpc] at h
      exact h
  | msg_num hpc =>
      rw [numbered, hpc] at h
      exact fun c ↦ (h c).mono (Nat.le_succ _)
  | @sigqueue j hpc hj =>
      rw [numbered, hpc] at h
      exact announced_setConsumer h ((h j).signal (Nat.lt_succ_self _))
  | @deliver c v hpending hrunning =>
      refine announced_setConsumer h ⟨by simp, fun w hw ↦ ?_⟩
      cases hw
      exact (h c).1 v hpending
  | @test c | @load c | @store c => exact announced_setConsumer h ((h c).setRunning (by simp))

theorem announced (h : (broadcast P).Run tr s) : ∀ c, Announced (numbered s) (s.consumer c) := by
  refine h.induction (P := fun _ s ↦ ∀ c, Announced (numbered s) (s.consumer c))
    (fun s hs c ↦ ?_) fun _ _ _ _ _ hann hs ↦ ?_
  · rw [hs.consumer c]
    exact ⟨by simp, by simp⟩
  · exact announced_step hann (.of_step hs)

/-! ## What is counted as received -/

/-- What the handler finds out about message `v`. -/
theorem received_iff_le (h : (broadcast P).Run tr s) {c v : Nat} {received : Bool}
    (hs : BroadcastStep P s (.test c v received) t) :
    received = true ↔ numbered s ≤ v + P.b := by
  cases hs with
  | test hrunning received hslot =>
      rw [← hslot]
      exact (slots h).recent.eq_iff P.b_pos ((announced h c).2 v hrunning)

/-- A message that is counted as received has its text in the slot. -/
def Intact (P : Args) (s : Broadcast) : Op → Prop
  | .test _ v true => (s.slot P v).buf = message v
  | _ => True

/-- No message is counted as received while its slot is being updated. -/
def Untorn (P : Args) (s : Broadcast) : Op → Prop
  | .test _ v true => ¬ Torn P s v
  | _ => True

theorem intact_iff_untorn (h : (broadcast P).Run tr s) (hs : BroadcastStep P s a t) :
    Intact P s a ↔ Untorn P s a := by
  cases a with
  | test c v received =>
      cases received with
      | false => exact Iff.rfl
      | true =>
          have hslots := slots h
          have hle := (received_iff_le h hs).mp rfl
          have hlt : v < numbered s := by
            cases hs with
            | test hrunning => exact (announced h c).2 v hrunning
          constructor
          · rintro hbuf ⟨hpc, hmod⟩
            -- the text is already that of the message whose number comes next
            have hnext := hslots.next hpc
            rw [hmod] at hnext
            have hnumbered : numbered s = s.i := by rw [numbered, hpc]
            rw [hnumbered] at hlt
            have hv : (v : Int) ≤ INT_MAX := by
              have hsmall := hslots.small
              omega
            have heq := message_inj hv hslots.small (hbuf.symm.trans hnext)
            exact absurd heq hlt.ne
          · exact hslots.text v hlt hle
  | _ => exact Iff.rfl

/-- **A message that is counted as received is there** in all the runs in which no handler
counts it between the two writes to its slot, and in no other. -/
theorem intact_iff : (((broadcast P).restrict (AtomicHandler P)).restrict (Intact P)).Run tr s ↔
    (((broadcast P).restrict (AtomicHandler P)).restrict (Untorn P)).Run tr s := by
  constructor
  · refine Lts.Run.restrict_of_imp fun tr s a t hrun hs ↦ ?_
    exact (intact_iff_untorn hrun.of_restrict.of_restrict (.of_step hs.2)).mp
  · refine Lts.Run.restrict_of_imp fun tr s a t hrun hs ↦ ?_
    exact (intact_iff_untorn hrun.of_restrict.of_restrict (.of_step hs.2)).mpr

/-! ## What is counted as lost -/

/-- The update of a slot is a single step, and so is a run of the handler. -/
def OneStep (P : Args) (s : Broadcast) (a : Op) : Prop := AtomicUpdate s a ∧ AtomicHandler P s a

instance (s : Broadcast) (a : Op) : Decidable (OneStep P s a) := inferInstanceAs (Decidable (_ ∧ _))

theorem numbered_le (h : (broadcast P).Run tr s) : numbered s ≤ P.m := by
  have hprogress := progress h
  rw [numbered]
  cases hpc : s.pc with
  | snprintf => exact hprogress.begun hpc
  | msg_num => exact (hprogress.inside (by simp [hpc])).le
  | sigqueue j => exact hprogress.inside (by simp [hpc])
  | done => exact (hprogress.done hpc).le

/-- The handler has found another number than its own. -/
def Handler.losing : Handler → Bool
  | .load .loss_cnt | .store .loss_cnt _ => true
  | _ => false

/-- No message has been found to be lost. -/
structure Lossless (tr : List Op) (s : Broadcast) : Prop where
  count : tr.countP (Op.increments .loss_cnt) = 0
  running : ∀ c r, (s.consumer c).running = some r → r.losing = false

theorem Lossless.step (h : Lossless tr s) (hs : BroadcastStep P s a t)
    (ha : ∀ c v, a ≠ .test c v false) : Lossless (tr ++ [a]) t := by
  have hset : ∀ c (x : Consumer), (∀ r, x.running = some r → r.losing = false) →
      ∀ d r, ((s.setConsumer c x).consumer d).running = some r → r.losing = false := by
    intro c x hx
    rw [Broadcast.setConsumer, Function.forall_update_iff s.consumer
      fun _ y ↦ ∀ r, y.running = some r → r.losing = false]
    exact ⟨hx, fun d _ ↦ h.running d⟩
  refine ⟨?_, ?_⟩
  · rw [countP_concat, h.count]
    cases hs with
    | @store c k x hrunning =>
        cases k with
        | cnt => rfl
        | loss_cnt => exact absurd (h.running c _ hrunning) (by simp [Handler.losing])
    | _ => rfl
  · cases hs with
    | @sigqueue j hpc hj => exact hset j _ (h.running j)
    | @deliver c v hpending hrunning => exact hset c _ (by simp [Handler.losing])
    | @test c v hrunning received hslot =>
        cases received with
        | false => exact absurd rfl (ha c v)
        | true => exact hset c _ (by simp [countOf, Handler.losing])
    | @load c k hrunning =>
        refine hset c _ fun r hr ↦ ?_
        have hk := h.running c _ hrunning
        cases hr
        cases k with
        | cnt => rfl
        | loss_cnt => exact absurd hk (by simp [Handler.losing])
    | @store c k x hrunning => exact hset c _ (by simp)
    | _ => exact h.running

/-- Nothing is lost in a ring that has a slot for every message. -/
theorem lossless (hb : P.m ≤ P.b) (h : (broadcast P).Run tr s) : Lossless tr s := by
  refine h.induction (P := Lossless) (fun s hs ↦ ⟨rfl, fun c r hr ↦ ?_⟩)
    fun tr s a t hrun hlossless hs ↦ ?_
  · rw [hs.consumer c] at hr
    cases hr
  · refine hlossless.step (.of_step hs) fun c v ha ↦ ?_
    subst ha
    have hle := numbered_le hrun
    have hnot := received_iff_le hrun (.of_step hs)
    simp only [Bool.false_eq_true, false_iff] at hnot
    omega

/-- A run of the handler, from its comparison to the end of an increment. -/
def handling (c v : Nat) (received : Bool) (k k' : Count) (x y : Int) : List Op :=
  [.test c v received, .load c k, .store c k' x y]

/-- What a handler increments, with what it has found in the slot. -/
theorem count_of_handling {c v : Nat} {received : Bool} {k k' : Count} {x y : Int}
    (h : ((broadcast P).restrict (OneStep P)).Path s (handling c v received k k' x y) t) :
    (∃ u, BroadcastStep P s (.test c v received) u) ∧ k' = countOf received ∧
      t.shmp_cnt = Function.update s.shmp_cnt k' (inc (s.shmp_cnt k')) := by
  obtain ⟨s₁, ⟨-, htest⟩, h⟩ := h.head
  obtain ⟨s₂, ⟨-, hload⟩, h⟩ := h.head
  obtain ⟨s₃, ⟨-, hstore⟩, h⟩ := h.head
  obtain rfl : t = s₃ := by
    generalize hnil : [] = l at h
    cases h with
    | nil => rfl
    | snoc => exact absurd hnil.symm (by simp)
  refine ⟨⟨s₁, .of_step htest⟩, ?_⟩
  cases BroadcastStep.of_step htest
  cases BroadcastStep.of_step hload with
  | load hrunning =>
      cases BroadcastStep.of_step hstore with
      | store hrunning' =>
          simp [Broadcast.setRunning, Broadcast.setConsumer] at hrunning hrunning'
          obtain ⟨rfl, rfl⟩ := hrunning'
          subst hrunning
          exact ⟨rfl, rfl⟩

/-- **A handler counts message `v` as received** if and only if message `v + b` has not
been written: it increments `cnt` then, otherwise `loss_cnt`, and nothing else.  With a slot for
every message no run of a handler increments `loss_cnt`. -/
theorem overrun (h : ((broadcast P).restrict (OneStep P)).Run tr s) :
    (∀ c v received k k' x y t,
      ((broadcast P).restrict (OneStep P)).Path s (handling c v received k k' x y) t →
        (k' = .cnt ↔ .msg_num (v + P.b) ∉ tr) ∧
        t.shmp_cnt = Function.update s.shmp_cnt k' (inc (s.shmp_cnt k'))) ∧
    (P.m ≤ P.b → tr.countP (Op.increments .loss_cnt) = 0) := by
  refine ⟨fun c v received k k' x y t hpath ↦ ?_, fun hb ↦ (lossless hb h.of_restrict).count⟩
  obtain ⟨⟨u, htest⟩, rfl, hcount⟩ := count_of_handling hpath
  refine ⟨?_, hcount⟩
  rw [(slots h.of_restrict).mem, Nat.not_lt, ← received_iff_le h.of_restrict htest]
  cases received with
  | true => exact iff_of_true rfl rfl
  | false => exact iff_of_false nofun nofun

/-! ## A ring of one slot -/

/-- Two messages for one consumer, and one slot. -/
def narrow : Args := ⟨2, 1, 1, Nat.one_pos⟩

/-- The second message is written before the handler runs for the first. -/
def wrapped : List Op :=
  [.snprintf, .msg_num 0, .sigqueue 0 false, .next, .snprintf, .msg_num 1, .deliver 0 0]

/-- The handler counts the first message as lost. -/
theorem overrun_wrapped : ∃ s t, ((broadcast narrow).restrict (OneStep narrow)).Run wrapped s ∧
    ((broadcast narrow).restrict (OneStep narrow)).Path s
      (handling 0 0 false .loss_cnt .loss_cnt 0 0) t ∧
    (Count.loss_cnt = .cnt ↔ .msg_num (0 + narrow.b) ∉ wrapped) ∧
    t.shmp_cnt = Function.update s.shmp_cnt .loss_cnt (inc (s.shmp_cnt .loss_cnt)) := by
  have hfirst : (Lts.exec (Lts.guarded (broadcastNext narrow) (OneStep narrow)) unstarted
      wrapped).isSome := by decide
  obtain ⟨s, hs⟩ := Option.isSome_iff_exists.mp hfirst
  have hsecond : ((Lts.exec (Lts.guarded (broadcastNext narrow) (OneStep narrow)) unstarted
      wrapped).bind fun s ↦ Lts.exec (Lts.guarded (broadcastNext narrow) (OneStep narrow)) s
        (handling 0 0 false .loss_cnt .loss_cnt 0 0)).isSome := by decide
  rw [hs, Option.bind_some] at hsecond
  obtain ⟨t, ht⟩ := Option.isSome_iff_exists.mp hsecond
  have hrun : ((broadcast narrow).restrict (OneStep narrow)).Run wrapped s :=
    .of_exec_guarded init_unstarted hs
  have hpath : ((broadcast narrow).restrict (OneStep narrow)).Path s _ t := .of_exec_guarded ht
  exact ⟨s, t, hrun, hpath, (overrun hrun).1 0 0 false _ _ 0 0 t hpath⟩

/-- The text of the second message is written before the handler has run for the first. -/
def overwritten : List Op :=
  [.snprintf, .msg_num 0, .sigqueue 0 false, .next, .snprintf, .deliver 0 0]

theorem exists_overwritten : ∃ s,
    ((broadcast narrow).restrict (AtomicHandler narrow)).Run overwritten s ∧
      ((s.consumer 0).running, s.shmp 0) = (some (.test 0), ⟨0, message 1⟩) :=
  Lts.exists_restrict_run_of_exec init_unstarted overwritten _ _ rfl

/-- The handler counts the first message as received, and the second is in the slot. -/
theorem not_intact_overwritten : ∃ s t,
    ((broadcast narrow).restrict (AtomicHandler narrow)).Run overwritten s ∧
      ((broadcast narrow).restrict (AtomicHandler narrow)).step s (.test 0 0 true) t ∧
      (s.slot narrow 0).buf = message 1 ∧ ¬ Intact narrow s (.test 0 0 true) := by
  obtain ⟨s, hrun, hs⟩ := exists_overwritten
  obtain ⟨hrunning, hslot⟩ := Prod.mk_inj.mp hs
  have hbuf : (s.slot narrow 0).buf = message 1 := congrArg Shmseg.buf hslot
  have hnum : (s.slot narrow 0).msg_num = 0 := congrArg Shmseg.msg_num hslot
  have hstep : broadcastNext narrow s (.test 0 0 true) =
      some (s.setRunning 0 (some (.load (countOf true)))) := by
    simp [broadcastNext, hrunning, hnum]
  have hatomic : AtomicHandler narrow s (.test 0 0 true) := by
    intro c hc _
    rw [Nat.lt_one_iff.mp hc]
    rfl
  refine ⟨s, _, hrun, ⟨hatomic, hstep⟩, hbuf, fun hintact ↦ ?_⟩
  exact absurd (message_inj (by decide) (by decide) (hbuf.symm.trans hintact)) (by decide)

end SysProg.SigRing
