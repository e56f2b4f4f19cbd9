import Mathlib.Tactic.NormNum
import SysProg.Lib.Strtol
import SysProg.MsgSeq.Routing

/-!
# Are sequence numbers handed out twice?

The client takes its length from the command line with `atoi`, which accepts
anything and returns any `int`, negative ones too.  Asking for a negative length
moves the server's counter back, and what it gives out next has been given out
before.  The counter also comes back to where it has been after `2 ^ 32` numbers.

`ranges_disjoint_iff`: as long as no negative length is taken, the ranges assigned so
far are disjoint if and only if their lengths sum to at most `2 ^ 32`.  `ranges_overlap`
is the run of three clients with the lengths `5`, `-3` and `2`.
-/

universe u

namespace SysProg.MsgSeq

open SysProg.Lib

variable {ι : Type u} [DecidableEq ι] {C : Clients ι} {room : Nat → Bool} {s : State ι}

/-! ## The command line -/

/-- `atoi`, as an `int`. -/
def atoi (arg : List UInt8) : BitVec 32 := BitVec.ofInt 32 (Strtol.atoi arg)

/-- `"--help"`, with which the client only prints its usage. -/
def help : List UInt8 := [45, 45, 104, 101, 108, 112]

/-- The clients as they are started: `argv[1]`, if there is one. -/
structure CommandLines (ι : Type u) where
  pid : ι → BitVec 32
  arg : ι → Option (List UInt8)
  pid_injective : Function.Injective pid
  one_lt_pid : ∀ i, 1 < (pid i).toInt
  arg_ne_help : ∀ i, arg i ≠ some help

/-- `req.seqLen = (argc > 1) ? atoi(argv[1]) : 1`. -/
def CommandLines.clients (A : CommandLines ι) : Clients ι where
  pid := A.pid
  seqLen i := match A.arg i with
    | some arg => atoi arg
    | none => 1
  pid_injective := A.pid_injective
  one_lt_pid := A.one_lt_pid

/-! ## Ranges -/

/-- The range of integers assigned to a request. -/
def rangeOf (take : Words × BitVec 32) : Grant ℤ := ⟨take.2.toInt, take.1.word1.toInt⟩

/-- No two of the requests share a number. -/
def RangesDisjoint (taken : List (Words × BitVec 32)) : Prop :=
  (taken.map rangeOf).Pairwise fun g g' ↦ Disjoint g.range g'.range

instance (taken : List (Words × BitVec 32)) : Decidable (RangesDisjoint taken) :=
  inferInstanceAs (Decidable (List.Pairwise _ _))

theorem ofInt_sum (xs : List (BitVec 32)) :
    BitVec.ofInt 32 (xs.map BitVec.toInt).sum = xs.sum := by
  induction xs with
  | nil => rfl
  | cons x xs ih => rw [List.map_cons, List.sum_cons, BitVec.ofInt_add, ih, BitVec.ofInt_toInt,
      List.sum_cons]

theorem toInt_sum (xs : List (BitVec 32)) :
    xs.sum.toInt = wrap (2 ^ 31) (xs.map BitVec.toInt).sum := by
  rw [← ofInt_sum, BitVec.toInt_ofInt, wrap, Int.bmod_def]
  split <;> omega

/-- The `int` counter gives out the sums of the lengths, wrapped. -/
theorem wrapped_takes {tr : List (Label ι)} (h : (msgSeq C room).Run tr s) :
    Wrapped (2 ^ 31) ((takes tr).map rangeOf) := by
  refine eachCall_map.mpr fun pre take hpre ↦ ?_
  have hstart := takes_start h pre take hpre
  show take.2.toInt = _
  rw [hstart, toInt_sum, List.map_map, List.map_map]
  rfl

/-- **Without negative lengths, the assigned ranges are disjoint if and only if their
lengths sum to at most `2 ^ 32`.** -/
theorem ranges_disjoint_iff {tr : List (Label ι)} (h : (msgSeq C room).Run tr s)
    (hnonneg : ∀ take ∈ takes tr, 0 ≤ take.1.word1.toInt) :
    RangesDisjoint (takes tr) ↔ ((takes tr).map fun take ↦ take.1.word1.toInt).sum ≤ 2 ^ 32 := by
  have hpos : ∀ grant ∈ (takes tr).map rangeOf, 0 ≤ grant.length := by
    intro grant hgrant
    obtain ⟨take, htake, rfl⟩ := List.mem_map.mp hgrant
    exact hnonneg take htake
  have hlt : ∀ grant ∈ (takes tr).map rangeOf, grant.length < 2 ^ 31 := by
    intro grant hgrant
    obtain ⟨take, -, rfl⟩ := List.mem_map.mp hgrant
    exact BitVec.toInt_lt
  rw [RangesDisjoint, (wrapped_takes h).pairwise_disjoint_iff (by norm_num) hpos hlt,
    List.map_map]
  rfl

theorem ranges_disjoint_iff_crossing :
    RangesDisjoint (takes crossing) ↔
      ((takes crossing).map fun take ↦ take.1.word1.toInt).sum ≤ 2 ^ 32 := by
  have hexec : (Lts.exec (next (twoClients 5 7) fun n ↦ n < 2) start crossing).map
      (fun s ↦ s.client 0) = some (.done 7) := by decide
  obtain ⟨s, hrun, -⟩ := Lts.exists_run_of_exec init_start _ _ _ hexec
  exact ranges_disjoint_iff hrun (by decide)

/-- Three clients, started with the arguments `5`, `-3` and `2`. -/
def threeClients : CommandLines (Fin 3) where
  pid := ![100, 101, 102]
  arg := ![some [53], some [45, 51], some [50]]
  pid_injective := by decide
  one_lt_pid := by decide
  arg_ne_help := by decide

/-- The requests are taken in the order of the clients. -/
def backwards : List (Label (Fin 3)) :=
  [.client 0 .send, .client 1 .send, .client 2 .send,
    .server (.recv ⟨100, 5⟩ 0), .server (.send 100 0 0),
    .server (.recv ⟨101, -3⟩ 5), .server (.send 101 5 0), .server (.recv ⟨102, 2⟩ 2)]

/-- The third client gets `[2, 4)`, of which the first has got all in `[0, 5)`. -/
theorem ranges_overlap : ∃ s, (msgSeq threeClients.clients fun n ↦ n < 16).Run backwards s ∧
    (takes backwards).map rangeOf = [⟨0, 5⟩, ⟨5, -3⟩, ⟨2, 2⟩] ∧
      ¬ RangesDisjoint (takes backwards) := by
  have hexec : (Lts.exec (next threeClients.clients fun n ↦ n < 16) start backwards).map
      (fun s ↦ s.seqNum) = some 4 := by decide
  obtain ⟨s, hrun, -⟩ := Lts.exists_run_of_exec init_start _ _ _ hexec
  exact ⟨s, hrun, by decide, by decide⟩

end SysProg.MsgSeq
