import SysProg.Lib.Counter
import SysProg.Lib.Lts

/-!
# Messages announced by signals

The producer of `SP_HW10.c` writes `m` messages to a ring of `b` slots in shared memory,
and sends the number of each message to the `n` consumers with `sigqueue`.  Their handler
compares the number with the one in the slot, and increments one of two shared counters.

Producer and handlers are one transition system.  Every access to the shared memory is a
step of its own, and an increment is two, the load and the store.  What the claims about
the program take for a single step is a condition on the schedule: nobody else moves while
a process is in the middle of it (`AtomicIncrement`, `AtomicHandler`, `AtomicUpdate`).

`SIGUSR1` is a standard signal.  One instance of it is pending for a process at most, with
the value it was sent with; while it is, further ones are discarded, and `sigqueue`
succeeds all the same.  The signal is blocked while its handler runs.

The counters and the loop variable are `int`s.  A counter wraps around, and the loop does
not go on behind the largest `int`.  What comes after the store in the handler touches
nothing shared, so the store ends its run.
-/

namespace SysProg.SigRing

open SysProg.Lib

/-! ## The shared memory -/

/-- `BUFSIZE` -/
def bufSize : Nat := 80

def INT_MAX : Int := 2147483647

def INT_MIN : Int := -2147483648

/-- What `c++` stores for the value `x` of `c`. -/
def inc (x : Int) : Int := if x = INT_MAX then INT_MIN else x + 1

theorem inc_le (x : Int) : inc x ≤ x + 1 := by
  unfold inc INT_MAX INT_MIN
  split <;> omega

theorem inc_eq_iff {x : Int} : inc x = x + 1 ↔ x ≠ INT_MAX := by
  unfold inc INT_MAX INT_MIN
  split <;> omega

/-- `struct shmseg`, with the string in `buf`. -/
structure Shmseg where
  msg_num : Int
  buf : List Char
deriving DecidableEq

/-- The members of `struct shmseg_cnt`. -/
inductive Count where
  | cnt | loss_cnt
deriving DecidableEq

/-- What `snprintf(buf, BUFSIZE, "This is message %d", i)` writes. -/
def message (i : Nat) : List Char :=
  ("This is message ".toList ++ Nat.toDigits 10 i).take (bufSize - 1)

/-- The program's arguments `m`, `n` and `b`. -/
structure Args where
  m : Nat
  n : Nat
  b : Nat
  b_pos : 0 < b

/-! ## The processes -/

/-- What the producer does next. -/
inductive ProducerPc where
  | snprintf | msg_num
  | /-- Send message `i` to consumer `j`. -/ sigqueue (j : Nat)
  | done
deriving DecidableEq

/-- Where a run of the handler is. -/
inductive Handler where
  | /-- Compare the value `v` of the signal. -/ test (v : Nat)
  | load (k : Count)
  | /-- Store what comes after `x`. -/ store (k : Count) (x : Int)
deriving DecidableEq

/-- A consumer: the value of a pending `SIGUSR1`, and its handler if it is running. -/
structure Consumer where
  pending : Option Nat
  running : Option Handler
deriving DecidableEq

/-- `SIGUSR1` arrives with the value `v`. -/
def Consumer.signal (x : Consumer) (v : Nat) : Consumer :=
  { x with pending := some (x.pending.getD v) }

structure Broadcast where
  i : Nat
  pc : ProducerPc
  shmp : Nat → Shmseg
  shmp_cnt : Count → Int
  consumer : Nat → Consumer

/-- What the processes do. -/
inductive Op where
  | snprintf
  | /-- Message `i` gets its number. -/ msg_num (i : Nat)
  | sigqueue (j : Nat) (discarded : Bool)
  | /-- `i++` -/ next
  | /-- The loop ends. -/ finish
  | /-- The handler of consumer `c` is called with `v`. -/ deliver (c v : Nat)
  | /-- It finds the number `v` in its slot, or another one. -/ test (c v : Nat) (received : Bool)
  | load (c : Nat) (k : Count)
  | /-- It had loaded `x`, and overwrites `y`. -/ store (c : Nat) (k : Count) (x y : Int)
deriving DecidableEq

/-- The slot of message `i`. -/
def Broadcast.slot (s : Broadcast) (P : Args) (i : Nat) : Shmseg := s.shmp (i % P.b)

def Broadcast.setSlot (s : Broadcast) (P : Args) (x : Shmseg) : Broadcast :=
  { s with shmp := Function.update s.shmp (s.i % P.b) x }

def Broadcast.setConsumer (s : Broadcast) (c : Nat) (x : Consumer) : Broadcast :=
  { s with consumer := Function.update s.consumer c x }

def Broadcast.setRunning (s : Broadcast) (c : Nat) (x : Option Handler) : Broadcast :=
  s.setConsumer c { s.consumer c with running := x }

/-- The counter that is incremented. -/
def countOf (received : Bool) : Count := if received then .cnt else .loss_cnt

/-- One step of the producer, or of a consumer's handler. -/
def broadcastNext (P : Args) (s : Broadcast) : Op → Option Broadcast
  | .snprintf =>
      if s.pc = .snprintf ∧ s.i < P.m then
        some { s.setSlot P { s.slot P s.i with buf := message s.i } with pc := .msg_num }
      else none
  | .msg_num i =>
      if s.pc = .msg_num ∧ s.i = i then
        some { s.setSlot P { s.slot P s.i with msg_num := i } with pc := .sigqueue 0 }
      else none
  | .sigqueue j discarded =>
      if s.pc = .sigqueue j ∧ j < P.n ∧ (s.consumer j).pending.isSome = discarded then
        some { s.setConsumer j ((s.consumer j).signal s.i) with pc := .sigqueue (j + 1) }
      else none
  | .next =>
      if s.pc = .sigqueue P.n ∧ s.i < INT_MAX then some { s with i := s.i + 1, pc := .snprintf }
      else none
  | .finish => if s.pc = .snprintf ∧ P.m ≤ s.i then some { s with pc := .done } else none
  | .deliver c v =>
      if (s.consumer c).pending = some v ∧ (s.consumer c).running = none then
        some (s.setConsumer c ⟨none, some (.test v)⟩)
      else none
  | .test c v received =>
      if (s.consumer c).running = some (.test v) ∧
          decide ((s.slot P v).msg_num = v) = received then
        some (s.setRunning c (some (.load (countOf received))))
      else none
  | .load c k =>
      if (s.consumer c).running = some (.load k) then
        some (s.setRunning c (some (.store k (s.shmp_cnt k))))
      else none
  | .store c k x y =>
      if (s.consumer c).running = some (.store k x) ∧ s.shmp_cnt k = y then
        some { s.setRunning c none with shmp_cnt := Function.update s.shmp_cnt k (inc x) }
      else none

/-- The counters have been cleared, and nobody has been sent a signal. -/
structure BroadcastInit (s : Broadcast) : Prop where
  i : s.i = 0
  pc : s.pc = .snprintf
  shmp_cnt : ∀ k, s.shmp_cnt k = 0
  consumer : ∀ c, s.consumer c = ⟨none, none⟩

/-- The broadcast of `m` messages to `n` consumers. -/
def broadcast (P : Args) : Lts Broadcast Op := Lts.ofNext BroadcastInit (broadcastNext P)

/-- The rule of each step. -/
inductive BroadcastStep (P : Args) (s : Broadcast) : Op → Broadcast → Prop
  | snprintf (hpc : s.pc = .snprintf) (hi : s.i < P.m) :
      BroadcastStep P s .snprintf
        { s.setSlot P { s.slot P s.i with buf := message s.i } with pc := .msg_num }
  | msg_num (hpc : s.pc = .msg_num) :
      BroadcastStep P s (.msg_num s.i)
        { s.setSlot P { s.slot P s.i with msg_num := s.i } with pc := .sigqueue 0 }
  | sigqueue {j : Nat} (hpc : s.pc = .sigqueue j) (hj : j < P.n) :
      BroadcastStep P s (.sigqueue j (s.consumer j).pending.isSome)
        { s.setConsumer j ((s.consumer j).signal s.i) with pc := .sigqueue (j + 1) }
  | next (hpc : s.pc = .sigqueue P.n) (hi : s.i < INT_MAX) :
      BroadcastStep P s .next { s with i := s.i + 1, pc := .snprintf }
  | finish (hpc : s.pc = .snprintf) (hi : P.m ≤ s.i) :
      BroadcastStep P s .finish { s with pc := .done }
  | deliver {c v : Nat} (hpending : (s.consumer c).pending = some v)
      (hrunning : (s.consumer c).running = none) :
      BroadcastStep P s (.deliver c v) (s.setConsumer c ⟨none, some (.test v)⟩)
  | test {c v : Nat} (hrunning : (s.consumer c).running = some (.test v)) (received : Bool)
      (hslot : (s.slot P v).msg_num = v ↔ received = true) :
      BroadcastStep P s (.test c v received) (s.setRunning c (some (.load (countOf received))))
  | load {c : Nat} {k : Count} (hrunning : (s.consumer c).running = some (.load k)) :
      BroadcastStep P s (.load c k) (s.setRunning c (some (.store k (s.shmp_cnt k))))
  | store {c : Nat} {k : Count} {x : Int} (hrunning : (s.consumer c).running = some (.store k x)) :
      BroadcastStep P s (.store c k x (s.shmp_cnt k))
        { s.setRunning c none with shmp_cnt := Function.update s.shmp_cnt k (inc x) }

variable {P : Args} {s t : Broadcast} {a : Op}

theorem BroadcastStep.of_step (h : (broadcast P).step s a t) : BroadcastStep P s a t := by
  have h : broadcastNext P s a = some t := h
  cases a with
  | snprintf =>
      obtain ⟨⟨hpc, hi⟩, h⟩ := Option.ite_none_right_eq_some.mp h
      cases h
      exact .snprintf hpc hi
  | msg_num i =>
      obtain ⟨⟨hpc, rfl⟩, hnext⟩ := Option.ite_none_right_eq_some.mp h
      cases hnext
      exact .msg_num hpc
  | sigqueue j discarded =>
      obtain ⟨⟨hpc, hj, rfl⟩, hnext⟩ := Option.ite_none_right_eq_some.mp h
      cases hnext
      exact .sigqueue hpc hj
  | next =>
      obtain ⟨⟨hpc, hi⟩, h⟩ := Option.ite_none_right_eq_some.mp h
      cases h
      exact .next hpc hi
  | finish =>
      obtain ⟨⟨hpc, hi⟩, h⟩ := Option.ite_none_right_eq_some.mp h
      cases h
      exact .finish hpc hi
  | deliver c v =>
      obtain ⟨⟨hpending, hrunning⟩, h⟩ := Option.ite_none_right_eq_some.mp h
      cases h
      exact .deliver hpending hrunning
  | test c v received =>
      obtain ⟨⟨hrunning, hreceived⟩, h⟩ := Option.ite_none_right_eq_some.mp h
      cases h
      exact .test hrunning received (by rw [← hreceived, decide_eq_true_eq])
  | load c k =>
      obtain ⟨hrunning, h⟩ := Option.ite_none_right_eq_some.mp h
      cases h
      exact .load hrunning
  | store c k x y =>
      obtain ⟨⟨hrunning, rfl⟩, hnext⟩ := Option.ite_none_right_eq_some.mp h
      cases hnext
      exact .store hrunning

/-! ## Schedules -/

/-- Whose handler takes the step. -/
def Op.actor : Op → Option Nat
  | .deliver c _ | .test c _ _ | .load c _ | .store c _ _ _ => some c
  | .snprintf | .msg_num _ | .sigqueue _ _ | .next | .finish => none

/-- The handler has loaded a counter and not stored it. -/
def Consumer.incrementing (x : Consumer) : Bool :=
  match x.running with
  | some (.store _ _) => true
  | _ => false

/-- An increment is a single step. -/
def AtomicIncrement (P : Args) (s : Broadcast) (a : Op) : Prop :=
  ∀ c < P.n, (s.consumer c).incrementing = true → a.actor = some c

/-- A run of the handler is a single step. -/
def AtomicHandler (P : Args) (s : Broadcast) (a : Op) : Prop :=
  ∀ c < P.n, (s.consumer c).running ≠ none → a.actor = some c

/-- The update of a slot is a single step. -/
def AtomicUpdate (s : Broadcast) (a : Op) : Prop := s.pc = .msg_num → a.actor = none

instance (s : Broadcast) (a : Op) : Decidable (AtomicIncrement P s a) :=
  inferInstanceAs (Decidable (∀ c < P.n, _ → _))

instance (s : Broadcast) (a : Op) : Decidable (AtomicHandler P s a) :=
  inferInstanceAs (Decidable (∀ c < P.n, _ → _))

instance (s : Broadcast) (a : Op) : Decidable (AtomicUpdate s a) :=
  inferInstanceAs (Decidable (_ → _))

/-- Only the `n` consumers are sent signals. -/
def Consumers (P : Args) (s : Broadcast) : Prop :=
  ∀ c, P.n ≤ c → s.consumer c = ⟨none, none⟩

theorem Consumers.lt (h : Consumers P s) {c : Nat} (hc : s.consumer c ≠ ⟨none, none⟩) :
    c < P.n := by
  by_contra hnot
  exact hc (h c (Nat.le_of_not_lt hnot))

theorem Consumers.setConsumer (h : Consumers P s) {c : Nat} (hc : c < P.n) (x : Consumer) :
    Consumers P (s.setConsumer c x) := by
  intro d hd
  have hne : d ≠ c := fun heq ↦ Nat.not_lt.mpr hd (heq ▸ hc)
  simpa [Broadcast.setConsumer, hne] using h d hd

theorem Consumers.step (h : Consumers P s) (hs : BroadcastStep P s a t) : Consumers P t := by
  cases hs with
  | sigqueue hpc hj => exact h.setConsumer hj _
  | deliver hpending hrunning => exact h.setConsumer (h.lt fun hc ↦ by simp [hc] at hpending) _
  | test hrunning | load hrunning | store hrunning =>
      exact h.setConsumer (h.lt fun hc ↦ by simp [hc] at hrunning) _
  | _ => exact h

theorem consumers {tr : List Op} (h : (broadcast P).Run tr s) : Consumers P s := by
  refine h.induction (P := fun _ s ↦ Consumers P s) (fun s hs ↦ ?_) fun _ _ _ _ _ hcons hs ↦ ?_
  · exact fun c _ ↦ hs.consumer c
  · exact hcons.step (.of_step hs)

/-- Nothing has been done. -/
def unstarted : Broadcast :=
  ⟨0, .snprintf, fun _ ↦ ⟨0, []⟩, fun _ ↦ 0, fun _ ↦ ⟨none, none⟩⟩

theorem init_unstarted : BroadcastInit unstarted := ⟨rfl, rfl, fun _ ↦ rfl, fun _ ↦ rfl⟩

end SysProg.SigRing
