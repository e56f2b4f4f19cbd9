import SysProg.Lib.Family
import SysProg.SigRing.Protocol

/-!
# What the counters of the handler count

The handlers of all consumers increment the two members of `shmp_cnt` without a lock.  Each
member is a `Counter` (`simulation`), so what is stored in it is known.

* `counted_iff`: the counters count the runs of the handler if and only if each increment
  finds the value it has loaded, and is not made at `INT_MAX`.
* `Accounted` follows every signal, from `sigqueue` to the end of the run that handles it.
* `balanced_iff`: when increments are atomic, all messages are counted for all consumers
  if and only if no signal has been discarded, and no increment is made at `INT_MAX`.
-/

namespace SysProg.SigRing

open SysProg.Lib

variable {P : Args} {s t : Broadcast} {a : Op} {tr : List Op} {k : Count}

/-! ## Each member is a counter -/

/-- What the handler of a consumer has loaded of the member `k`. -/
def loadedOf (k : Count) (x : Consumer) : Option Int :=
  match x.running with
  | some (.store k' v) => if k' = k then some v else none
  | _ => none

/-- The member `k`. -/
def counterOf (k : Count) (s : Broadcast) : Counter Nat :=
  ⟨s.shmp_cnt k, fun c ↦ loadedOf k (s.consumer c)⟩

/-- What a step does to it. -/
def counterOp (k : Count) : Op → Option (CounterOp Nat)
  | .load c k' => if k' = k then some (.load c) else none
  | .store c k' x y => if k' = k then some (.store c x y) else none
  | _ => none

theorem loadedOf_running (k k' : Count) (x : Consumer) (v : Int) :
    loadedOf k { x with running := some (.store k' v) } = if k' = k then some v else none := rfl

theorem loadedOf_eq {x : Consumer} {k' : Count} {v : Int} (h : x.running = some (.store k' v)) :
    loadedOf k x = if k' = k then some v else none := by
  rw [loadedOf, h]

theorem counterOf_setConsumer (k : Count) (s : Broadcast) (c : Nat) (x : Consumer) :
    counterOf k (s.setConsumer c x) =
      { counterOf k s with loaded := Function.update (counterOf k s).loaded c (loadedOf k x) } := by
  have hloaded : (fun d ↦ loadedOf k (Function.update s.consumer c x d)) =
      Function.update (fun d ↦ loadedOf k (s.consumer d)) c (loadedOf k x) := by
    funext d
    exact Function.apply_update (fun _ ↦ loadedOf k) s.consumer c x d
  exact congrArg (Counter.mk (s.shmp_cnt k)) hloaded

/-- A step of a consumer that loads and stores nothing. -/
theorem counterOf_congr {c : Nat} {x : Consumer} (h : loadedOf k x = loadedOf k (s.consumer c)) :
    counterOf k (s.setConsumer c x) = counterOf k s := by
  rw [counterOf_setConsumer, h]
  exact congrArg (Counter.mk (s.shmp_cnt k)) (Function.update_eq_self _ _)

/-- The end of an increment of the member `k'`. -/
theorem counterOf_store (k k' : Count) (s : Broadcast) (c : Nat) (y : Int) :
    counterOf k { s.setRunning c none with shmp_cnt := Function.update s.shmp_cnt k' y } =
      ⟨Function.update s.shmp_cnt k' y k, Function.update (counterOf k s).loaded c none⟩ := by
  have hloaded := congrArg Counter.loaded (counterOf_setConsumer k s c
    { s.consumer c with running := none })
  exact congrArg (Counter.mk _) hloaded

theorem counterOf_skip (hs : BroadcastStep P s a t) (ha : counterOp k a = none) :
    counterOf k t = counterOf k s := by
  cases hs with
  | @sigqueue j hpc hj =>
      have hcongr : counterOf k (s.setConsumer j ((s.consumer j).signal s.i)) = counterOf k s :=
        counterOf_congr rfl
      exact hcongr
  | deliver hpending hrunning => exact counterOf_congr (by rw [loadedOf, loadedOf, hrunning])
  | test hrunning received hslot => exact counterOf_congr (by rw [loadedOf, loadedOf, hrunning])
  | @load c k' hrunning =>
      have hne : k' ≠ k := fun heq ↦ by simp [counterOp, heq] at ha
      refine counterOf_congr ?_
      rw [loadedOf_running, if_neg hne, loadedOf, hrunning]
  | @store c k' x hrunning =>
      have hne : k' ≠ k := fun heq ↦ by simp [counterOp, heq] at ha
      have hloaded : (counterOf k s).loaded c = none := by
        change loadedOf k (s.consumer c) = none
        rw [loadedOf_eq hrunning, if_neg hne]
      rw [counterOf_store, Function.update_of_ne hne.symm, ← hloaded, Function.update_eq_self]
      rfl
  | _ => rfl

theorem counterOf_sync (hs : BroadcastStep P s a t) {b : CounterOp Nat}
    (ha : counterOp k a = some b) : Counter.Step inc (counterOf k s) b (counterOf k t) := by
  cases hs with
  | @load c k' hrunning =>
      obtain ⟨rfl, hb⟩ := Option.ite_none_right_eq_some.mp ha
      cases hb
      rw [Broadcast.setRunning, counterOf_setConsumer, loadedOf_running, if_pos rfl]
      exact .load c
  | @store c k' x hrunning =>
      obtain ⟨rfl, hb⟩ := Option.ite_none_right_eq_some.mp ha
      cases hb
      have hloaded : (counterOf k' s).loaded c = some x := by
        change loadedOf k' (s.consumer c) = some x
        rw [loadedOf_eq hrunning, if_pos rfl]
      rw [counterOf_store, Function.update_self]
      exact .store hloaded
  | _ => cases ha

/-- **The member `k` is a counter** that the consumers increment. -/
theorem simulation (P : Args) (k : Count) :
    Lts.Simulation (broadcast P) (Counter.system Nat inc) (counterOp k)
      fun _ s t ↦ t = counterOf k s where
  init s hs := by
    refine ⟨_, ⟨hs.shmp_cnt k, fun c ↦ ?_⟩, rfl⟩
    change loadedOf k (s.consumer c) = none
    rw [hs.consumer c]
    rfl
  skip tr s a s' t _ hs ha ht := ht.trans (counterOf_skip (.of_step hs) ha).symm
  sync tr s a s' t b _ hs ha ht := ⟨_, ht ▸ counterOf_sync (.of_step hs) ha, rfl⟩

/-! ## Completed runs of the handler -/

/-- The step increments the member `k`. -/
def Op.increments (k : Count) : Op → Bool
  | .store _ k' _ _ => k' = k
  | _ => false

/-- The step ends a run of the handler. -/
def Op.completes : Op → Bool
  | .store _ _ _ _ => true
  | _ => false

/-- The increment finds the value it has loaded, and is not made at `INT_MAX`. -/
def Exact : Op → Prop
  | .store _ _ x y => y = x ∧ x ≠ INT_MAX
  | _ => True

/-- What the report adds up. -/
def total (s : Broadcast) : Int := s.shmp_cnt .cnt + s.shmp_cnt .loss_cnt

theorem countP_counterOp (k : Count) (tr : List Op) :
    (tr.filterMap (counterOp k)).countP Counter.isStore = tr.countP (Op.increments k) := by
  rw [List.countP_filterMap]
  congr 1
  funext a
  cases a with
  | load c k' => by_cases hk : k' = k <;> simp [counterOp, Op.increments, hk, Counter.isStore]
  | store c k' x y => by_cases hk : k' = k <;> simp [counterOp, Op.increments, hk, Counter.isStore]
  | _ => rfl

theorem countP_completes (tr : List Op) : tr.countP Op.completes =
    tr.countP (Op.increments .cnt) + tr.countP (Op.increments .loss_cnt) := by
  induction tr with
  | nil => rfl
  | cons a tr ih =>
      rw [List.countP_cons, List.countP_cons, List.countP_cons, ih]
      cases a with
      | store c k x y => cases k <;> (simp [Op.completes, Op.increments]; omega)
      | _ => simp [Op.completes, Op.increments]

theorem exact_iff : (∀ k, ∀ b ∈ tr.filterMap (counterOp k), Counter.Exact inc b) ↔
    ∀ a ∈ tr, Exact a := by
  constructor
  · intro h a ha
    cases a with
    | store c k x y =>
        have hb := h k (.store c x y) (List.mem_filterMap.mpr ⟨_, ha, if_pos rfl⟩)
        exact ⟨hb.1, inc_eq_iff.mp hb.2⟩
    | _ => trivial
  · intro h k b hb
    obtain ⟨a, ha, hab⟩ := List.mem_filterMap.mp hb
    cases a with
    | load c k' =>
        obtain ⟨-, hb⟩ := Option.ite_none_right_eq_some.mp hab
        cases hb
        trivial
    | store c k' x y =>
        obtain ⟨-, hb⟩ := Option.ite_none_right_eq_some.mp hab
        cases hb
        exact ⟨(h _ ha).1, inc_eq_iff.mpr (h _ ha).2⟩
    | _ => cases hab

theorem shmp_cnt_le (h : (broadcast P).Run tr s) (k : Count) :
    s.shmp_cnt k ≤ tr.countP (Op.increments k) := by
  obtain ⟨_, hrun, rfl⟩ := (simulation P k).run h
  rw [← countP_counterOp]
  exact Counter.value_le inc_le hrun

theorem shmp_cnt_eq_iff (h : (broadcast P).Run tr s) (k : Count) :
    s.shmp_cnt k = tr.countP (Op.increments k) ↔
      ∀ b ∈ tr.filterMap (counterOp k), Counter.Exact inc b := by
  obtain ⟨_, hrun, rfl⟩ := (simulation P k).run h
  rw [← countP_counterOp]
  exact Counter.value_eq_iff inc_le hrun

theorem total_le (h : (broadcast P).Run tr s) : total s ≤ tr.countP Op.completes := by
  have hcnt := shmp_cnt_le h .cnt
  have hloss := shmp_cnt_le h .loss_cnt
  rw [countP_completes, total]
  omega

theorem total_eq_iff_forall (h : (broadcast P).Run tr s) :
    total s = tr.countP Op.completes ↔
      ∀ k, s.shmp_cnt k = tr.countP (Op.increments k) := by
  have hcnt := shmp_cnt_le h .cnt
  have hloss := shmp_cnt_le h .loss_cnt
  rw [countP_completes, total]
  constructor
  · intro heq k
    cases k <;> omega
  · intro heq
    have hcnt := heq .cnt
    have hloss := heq .loss_cnt
    omega

/-- **No count is lost** if and only if every increment finds the value it has loaded, and
none is made at `INT_MAX`. -/
theorem counted_iff (h : (broadcast P).Run tr s) :
    total s = tr.countP Op.completes ↔ ∀ a ∈ tr, Exact a := by
  rw [total_eq_iff_forall h, ← exact_iff]
  exact forall_congr' (shmp_cnt_eq_iff h)

/-! ## Increments that are atomic -/

theorem running_of_loadedOf {x : Consumer} {v : Int} (h : loadedOf k x = some v) :
    x.running = some (.store k v) := by
  rw [loadedOf] at h
  split at h
  · next k' v' hrunning =>
      obtain ⟨rfl, hv⟩ := Option.ite_none_right_eq_some.mp h
      cases hv
      exact hrunning
  · cases h

theorem process_of_actor {b : CounterOp Nat} {c : Nat} (hab : counterOp k a = some b)
    (hc : a.actor = some c) : Counter.process b = c := by
  cases a with
  | load d k' | store d k' x y =>
      obtain ⟨-, hb⟩ := Option.ite_none_right_eq_some.mp hab
      cases hb
      exact Option.some.inj hc
  | _ => cases hab

/-- Then nobody gets between a load and its store. -/
theorem simulation_atomic (P : Args) (k : Count) :
    Lts.Simulation ((broadcast P).restrict (AtomicIncrement P))
      ((Counter.system Nat inc).restrict Counter.Undisturbed) (counterOp k)
      fun _ s t ↦ t = counterOf k s where
  init s hs := (simulation P k).init s hs
  skip tr s a s' t hr hs ha ht := (simulation P k).skip tr s a s' t hr.of_restrict hs.2 ha ht
  sync tr s a s' t b hr hs ha ht := by
    obtain ⟨t', hstep, ht'⟩ := (simulation P k).sync tr s a s' t b hr.of_restrict hs.2 ha ht
    refine ⟨t', ⟨fun c x hx ↦ ?_, hstep⟩, ht'⟩
    subst ht
    have hrunning : (s.consumer c).running = some (.store k x) := running_of_loadedOf hx
    have hc : c < P.n := (consumers hr.of_restrict).lt fun hidle ↦ by simp [hidle] at hrunning
    exact process_of_actor ha (hs.1 c hc (by rw [Consumer.incrementing, hrunning]))

theorem found_eq (h : ((broadcast P).restrict (AtomicIncrement P)).Run tr s) {c : Nat} {x y : Int}
    (hmem : .store c k x y ∈ tr) : y = x := by
  obtain ⟨_, hrun, -⟩ := (simulation_atomic P k).run h
  exact Counter.found_eq hrun c x y (List.mem_filterMap.mpr ⟨_, hmem, if_pos rfl⟩)

/-! ## Every signal -/

/-- The step discards a signal. -/
def Op.discards : Op → Bool
  | .sigqueue _ discarded => discarded
  | _ => false

/-- How many signals a consumer has to handle or is handling. -/
def held (x : Consumer) : Nat := x.pending.isSome.toNat + x.running.isSome.toNat

/-- How often `sigqueue` has been called. -/
def sent (P : Args) (s : Broadcast) : Nat :=
  match s.pc with
  | .sigqueue j => s.i * P.n + j
  | _ => s.i * P.n

/-- Every signal has been handled or discarded, or some consumer has it. -/
def Accounted (P : Args) (tr : List Op) (s : Broadcast) : Prop :=
  sent P s = tr.countP Op.completes + tr.countP Op.discards +
    ∑ c ∈ Finset.range P.n, held (s.consumer c)

theorem countP_concat (p : Op → Bool) (tr : List Op) (a : Op) :
    (tr ++ [a]).countP p = tr.countP p + (p a).toNat := by
  rw [List.countP_append, List.countP_singleton]
  cases p a <;> rfl

/-- A step that does not touch a signal. -/
theorem Accounted.skip (h : Accounted P tr s) (hcompletes : a.completes = false)
    (hdiscards : a.discards = false) (hsent : sent P t = sent P s)
    (hconsumer : t.consumer = s.consumer) : Accounted P (tr ++ [a]) t := by
  rw [Accounted, hsent, hconsumer, countP_concat, countP_concat, hcompletes, hdiscards]
  exact h

/-- A consumer does something with its signals. -/
theorem Accounted.consume (h : Accounted P tr s) {c : Nat} (hc : c < P.n) {x : Consumer}
    (hdiscards : a.discards = false) (hx : held x + a.completes.toNat = held (s.consumer c)) :
    Accounted P (tr ++ [a]) (s.setConsumer c x) := by
  have hsum : ∑ d ∈ Finset.range P.n, held ((s.setConsumer c x).consumer d) +
      held (s.consumer c) = ∑ d ∈ Finset.range P.n, held (s.consumer d) + held x :=
    sum_range_update hc x
  have hsent : sent P (s.setConsumer c x) = sent P s := rfl
  rw [Accounted] at h
  rw [Accounted, hsent, countP_concat, countP_concat, hdiscards, Bool.toNat_false]
  omega

/-- A signal is sent. -/
theorem Accounted.sigqueue (h : Accounted P tr s) {j : Nat} (hpc : s.pc = .sigqueue j)
    (hj : j < P.n) : Accounted P (tr ++ [.sigqueue j (s.consumer j).pending.isSome])
      { s.setConsumer j ((s.consumer j).signal s.i) with pc := .sigqueue (j + 1) } := by
  have hsum : ∑ d ∈ Finset.range P.n,
      held ((s.setConsumer j ((s.consumer j).signal s.i)).consumer d) + held (s.consumer j) =
      ∑ d ∈ Finset.range P.n, held (s.consumer d) + held ((s.consumer j).signal s.i) :=
    sum_range_update hj _
  have hheld : held ((s.consumer j).signal s.i) + (s.consumer j).pending.isSome.toNat =
      held (s.consumer j) + 1 := by
    cases hp : (s.consumer j).pending with
    | none => simp [held, Consumer.signal, hp, Nat.add_comm]
    | some v => simp [held, Consumer.signal, hp, Nat.add_right_comm]
  simp only [Accounted, sent, hpc] at h
  rw [Accounted, countP_concat, countP_concat]
  change s.i * P.n + (j + 1) = _ + Bool.toNat false + (_ + (s.consumer j).pending.isSome.toNat) +
    ∑ d ∈ Finset.range P.n, held ((s.setConsumer j ((s.consumer j).signal s.i)).consumer d)
  simp only [Bool.toNat_false]
  omega

theorem Accounted.step (h : Accounted P tr s) (hcons : Consumers P s)
    (hs : BroadcastStep P s a t) : Accounted P (tr ++ [a]) t := by
  have hlt : ∀ {c : Nat} {r : Handler}, (s.consumer c).running = some r → c < P.n := by
    intro c r hrunning
    exact hcons.lt fun hidle ↦ by simp [hidle] at hrunning
  cases hs with
  | snprintf hpc hi | msg_num hpc => exact h.skip rfl rfl (by rw [sent, sent, hpc]; rfl) rfl
  | sigqueue hpc hj => exact h.sigqueue hpc hj
  | next hpc hi => exact h.skip rfl rfl (by simp [sent, hpc, Nat.succ_mul]) rfl
  | finish hpc hi => exact h.skip rfl rfl (by simp [sent, hpc]) rfl
  | @deliver c v hpending hrunning =>
      have hc : c < P.n := hcons.lt fun hidle ↦ by simp [hidle] at hpending
      refine h.consume hc rfl ?_
      simp [held, hpending, hrunning, Op.completes]
  | test hrunning received hslot | load hrunning =>
      refine h.consume (hlt hrunning) rfl ?_
      simp [held, hrunning, Op.completes]
  | @store c k x hrunning =>
      have hdone : Accounted P (tr ++ [.store c k x (s.shmp_cnt k)]) (s.setRunning c none) := by
        refine h.consume (hlt hrunning) rfl ?_
        simp [held, hrunning, Op.completes]
      exact hdone

theorem accounted (h : (broadcast P).Run tr s) : Accounted P tr s := by
  refine h.induction (P := Accounted P) (fun s hs ↦ ?_) fun tr s a t hrun hacc hs ↦ ?_
  · have hheld : ∀ c, held (s.consumer c) = 0 := by
      intro c
      rw [hs.consumer c]
      rfl
    simp [Accounted, sent, hs.pc, hs.i, hheld]
  · exact hacc.step (consumers hrun) (.of_step hs)

/-- The loop variable. -/
structure Progress (P : Args) (s : Broadcast) : Prop where
  begun : s.pc = .snprintf → s.i ≤ P.m
  inside : s.pc ≠ .snprintf ∧ s.pc ≠ .done → s.i < P.m
  done : s.pc = .done → s.i = P.m

theorem Progress.step (h : Progress P s) (hs : BroadcastStep P s a t) : Progress P t := by
  cases hs with
  | snprintf hpc hi => exact ⟨by simp, fun _ ↦ hi, by simp⟩
  | msg_num hpc | sigqueue hpc hj => exact ⟨by simp, fun _ ↦ h.inside (by simp [hpc]), by simp⟩
  | next hpc hi => exact ⟨fun _ ↦ h.inside (by simp [hpc]), by simp, by simp⟩
  | finish hpc hi => exact ⟨by simp, by simp, fun _ ↦ (h.begun hpc).antisymm hi⟩
  | _ => exact ⟨h.begun, h.inside, h.done⟩

theorem progress (h : (broadcast P).Run tr s) : Progress P s := by
  refine h.induction (P := fun _ s ↦ Progress P s) (fun s hs ↦ ?_) fun _ _ _ _ _ hprog hs ↦ ?_
  · exact ⟨fun _ ↦ by simp [hs.i], by simp [hs.pc], by simp [hs.pc]⟩
  · exact hprog.step (.of_step hs)

/-! ## The balance -/

/-- Nothing gets lost on the way to the counters: no signal is discarded, and no increment
is made at `INT_MAX`. -/
def Kept : Op → Prop
  | .sigqueue _ discarded => discarded = false
  | .store _ _ x _ => x ≠ INT_MAX
  | _ => True

/-- The producer has sent everything, and no consumer has anything left to handle. -/
structure Finished (s : Broadcast) : Prop where
  done : s.pc = .done
  idle : ∀ c, s.consumer c = ⟨none, none⟩

theorem kept_iff : (∀ a ∈ tr, Kept a) ↔
    tr.countP Op.discards = 0 ∧ ∀ c k x y, .store c k x y ∈ tr → x ≠ INT_MAX := by
  rw [List.countP_eq_zero]
  constructor
  · intro h
    refine ⟨fun a ha ↦ ?_, fun c k x y ha ↦ h _ ha⟩
    cases a with
    | sigqueue j discarded => simpa [Op.discards, Kept] using h _ ha
    | _ => simp [Op.discards]
  · rintro ⟨hdiscards, hstore⟩ a ha
    cases a with
    | sigqueue j discarded => simpa [Op.discards, Kept] using hdiscards _ ha
    | store c k x y => exact hstore c k x y ha
    | _ => trivial

theorem total_eq_completes_iff (h : ((broadcast P).restrict (AtomicIncrement P)).Run tr s) :
    total s = tr.countP Op.completes ↔ ∀ c k x y, .store c k x y ∈ tr → x ≠ INT_MAX := by
  rw [total_eq_iff_forall h.of_restrict]
  have hexact : (∀ k, s.shmp_cnt k = tr.countP (Op.increments k)) ↔ ∀ a ∈ tr, Exact a :=
    (forall_congr' (shmp_cnt_eq_iff h.of_restrict)).trans exact_iff
  rw [hexact]
  constructor
  · intro hall c k x y hmem
    exact (hall _ hmem).2
  · intro hmax a ha
    cases a with
    | store c k x y => exact ⟨found_eq h ha, hmax c k x y ha⟩
    | _ => trivial

/-- **Every message is counted** once for every consumer if and only if nothing gets lost
on the way. -/
theorem balanced_iff (h : ((broadcast P).restrict (AtomicIncrement P)).Run tr s)
    (hfin : Finished s) : total s = P.m * P.n ↔ ∀ a ∈ tr, Kept a := by
  have hsent : P.m * P.n = tr.countP Op.completes + tr.countP Op.discards := by
    have hacc := accounted h.of_restrict
    have hi := (progress h.of_restrict).done hfin.done
    have hheld : ∀ c, held (s.consumer c) = 0 := by
      intro c
      rw [hfin.idle c]
      rfl
    simpa [Accounted, sent, hfin.done, hi, hheld] using hacc
  have hle := total_le h.of_restrict
  have hcast : (P.m * P.n : Int) = tr.countP Op.completes + tr.countP Op.discards := by
    exact_mod_cast hsent
  rw [kept_iff, ← total_eq_completes_iff h, hcast]
  omega

/-! ## Two runs -/

/-- What there is to see of the counters and of the first consumers. -/
def report (P : Args) (s : Broadcast) : ProducerPc × List Consumer × Int :=
  (s.pc, (List.range P.n).map s.consumer, total s)

theorem idle_of_report (h : Consumers P s) {pc : ProducerPc} {x : Int}
    (hs : report P s = (pc, List.replicate P.n ⟨none, none⟩, x)) (c : Nat) :
    s.consumer c = ⟨none, none⟩ := by
  by_contra hne
  have hmem : s.consumer c ∈ (report P s).2.1 :=
    List.mem_map_of_mem (List.mem_range.mpr (h.lt hne))
  rw [hs] at hmem
  exact hne (List.eq_of_mem_replicate hmem)

/-- Two messages for two consumers. -/
def pairs : Args := ⟨2, 2, 1, Nat.one_pos⟩

/-- Message `i` is handled by consumer `c`, when `k` were counted before. -/
def handled (c i k : Nat) : List Op :=
  [.deliver c i, .test c i true, .load c .cnt, .store c .cnt k k]

/-- Each is sent, and received by both, before the next is written. -/
def received : List Op :=
  [.snprintf, .msg_num 0, .sigqueue 0 false, .sigqueue 1 false] ++ handled 1 0 0 ++
    handled 0 0 1 ++ [.next, .snprintf, .msg_num 1, .sigqueue 0 false, .sigqueue 1 false] ++
    handled 0 1 2 ++ handled 1 1 3 ++ [.next, .finish]

theorem exists_received : ∃ s, ((broadcast pairs).restrict (AtomicIncrement pairs)).Run received s ∧
    report pairs s = (.done, List.replicate pairs.n ⟨none, none⟩, 4) :=
  Lts.exists_restrict_run_of_exec init_unstarted received (report pairs) _ (by decide)

theorem balanced_received :
    ∃ s, ((broadcast pairs).restrict (AtomicIncrement pairs)).Run received s ∧ Finished s ∧
      total s = pairs.m * pairs.n := by
  obtain ⟨s, hrun, hs⟩ := exists_received
  have hfin : Finished s :=
    ⟨congrArg Prod.fst hs, idle_of_report (consumers hrun.of_restrict) hs⟩
  exact ⟨s, hrun, hfin, (balanced_iff hrun hfin).mpr (by simp [received, handled, Kept, INT_MAX])⟩

theorem counted_received : ∃ s, (broadcast pairs).Run received s ∧
    (∀ c, (s.consumer c).running = none) ∧ total s = received.countP Op.completes := by
  obtain ⟨s, hrun, hs⟩ := exists_received
  refine ⟨s, hrun.of_restrict, fun c ↦ ?_, ?_⟩
  · rw [idle_of_report (consumers hrun.of_restrict) hs]
  · exact (counted_iff hrun.of_restrict).mpr (by simp [received, handled, Exact, INT_MAX])

/-- Two messages for one consumer. -/
def two : Args := ⟨2, 1, 2, by decide⟩

/-- The second is sent before the consumer has handled the first. -/
def discarded : List Op :=
  [.snprintf, .msg_num 0, .sigqueue 0 false, .next, .snprintf, .msg_num 1, .sigqueue 0 true, .next,
    .finish, .deliver 0 0, .test 0 0 true, .load 0 .cnt, .store 0 .cnt 0 0]

theorem exists_discarded : ∃ s,
    ((broadcast two).restrict (AtomicIncrement two)).Run discarded s ∧
      report two s = (.done, List.replicate two.n ⟨none, none⟩, 1) :=
  Lts.exists_restrict_run_of_exec init_unstarted discarded (report two) _ (by decide)

/-- It is counted neither as received nor as lost. -/
theorem not_balanced_discarded :
    ∃ s, ((broadcast two).restrict (AtomicIncrement two)).Run discarded s ∧ Finished s ∧
      total s = 1 ∧ total s ≠ two.m * two.n := by
  obtain ⟨s, hrun, hs⟩ := exists_discarded
  have htotal : total s = 1 := congrArg (fun r ↦ r.2.2) hs
  have hidle := idle_of_report (consumers hrun.of_restrict) hs
  refine ⟨s, hrun, ⟨congrArg Prod.fst hs, hidle⟩, htotal, ?_⟩
  rw [htotal]
  decide

/-- One message for two consumers. -/
def both : Args := ⟨1, 2, 1, by decide⟩

/-- Their handlers load the counter, and then they store it. -/
def overlapping : List Op :=
  [.snprintf, .msg_num 0, .sigqueue 0 false, .sigqueue 1 false, .deliver 0 0, .deliver 1 0,
    .test 0 0 true, .test 1 0 true, .load 0 .cnt, .load 1 .cnt, .store 0 .cnt 0 0,
    .store 1 .cnt 0 1]

theorem exists_overlapping : ∃ s, (broadcast both).Run overlapping s ∧
    report both s = (.sigqueue 2, List.replicate both.n ⟨none, none⟩, 1) :=
  Lts.exists_run_of_exec init_unstarted overlapping (report both) _ (by decide)

/-- Two runs of the handler have been completed, and one is counted. -/
theorem not_counted_overlapping : ∃ s, (broadcast both).Run overlapping s ∧
    (∀ c, (s.consumer c).running = none) ∧ overlapping.countP Op.completes = 2 ∧
    total s = 1 ∧ total s ≠ overlapping.countP Op.completes := by
  obtain ⟨s, hrun, hs⟩ := exists_overlapping
  have htotal : total s = 1 := congrArg (fun r ↦ r.2.2) hs
  refine ⟨s, hrun, fun c ↦ ?_, by decide, htotal, ?_⟩
  · rw [idle_of_report (consumers hrun) hs]
  · rw [htotal]
    decide

end SysProg.SigRing
