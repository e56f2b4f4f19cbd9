import SysProg.Lib.Strtol
import SysProg.MsgSeq.Ranges

/-!
# The numbers on the command line

`getLong` and `getInt` of `SP_HW8/44_6/get_num.c`, with which the clients over FIFOs read the
length they ask for.

* `getInt_eq_ok_iff`: what is accepted are the numerals of the base that the flags say, for an
  `int` of the sign they say, and the result is what they stand for.
* `getInt_eq_error_iff`: what is refused, and with which of the messages.
* `getInt_decimal`: a number that `%d` has printed comes back.
* `atoi_of_getInt`: on what `getInt` accepts, the `atoi` of the clients over the message queue
  gives the same.
-/

namespace SysProg.FifoSeq

open SysProg.Lib
open SysProg.Lib.Strtol (Numeral longMin longMax)

/-! ## The functions -/

/-- Value must be >= 0. -/
def GN_NONNEG : BitVec 32 := 0o01

/-- Value must be > 0. -/
def GN_GT_0 : BitVec 32 := 0o02

def GN_ANY_BASE : BitVec 32 := 0o0100

def GN_BASE_8 : BitVec 32 := 0o0200

def GN_BASE_16 : BitVec 32 := 0o0400

/-- `flags & flag` -/
def has (flags flag : BitVec 32) : Prop := flags &&& flag ≠ 0

instance (flags flag : BitVec 32) : Decidable (has flags flag) :=
  inferInstanceAs (Decidable (_ ≠ _))

/-- The arguments of `gnFail`, which ends the program with `EXIT_FAILURE`. -/
structure GnFail where
  fname : String
  msg : String
  arg : Option (List UInt8)
  name : Option (List UInt8)
deriving DecidableEq

/-- What `gnFail` prints. -/
def GnFail.stderr (f : GnFail) : List UInt8 :=
  ascii f.fname ++ ascii " error" ++
  (match f.name with
    | some name => ascii " (in " ++ name ++ ascii ")"
    | none => []) ++
  ascii ": " ++ ascii f.msg ++ ascii "\n" ++
  match f.arg with
    | none | some [] => []
    | some (c :: s) => ascii "        offending text: " ++ (c :: s) ++ ascii "\n"

/-- The base for `strtol`; of several flags the first of these counts. -/
def base (flags : BitVec 32) : Nat :=
  if has flags GN_ANY_BASE then 0
  else if has flags GN_BASE_8 then 8
  else if has flags GN_BASE_16 then 16
  else 10

/-- The checks of `getNum`, in their order. -/
def getNum (fname : String) (arg : Option (List UInt8)) (flags : BitVec 32)
    (name : Option (List UInt8)) : Except GnFail Int :=
  match arg with
  | none => .error ⟨fname, "null or empty string", arg, name⟩
  | some s =>
      if s = [] then .error ⟨fname, "null or empty string", arg, name⟩
      else
        let res := Strtol.strtol s (base flags)
        if res.erange then .error ⟨fname, "strtol() failed", arg, name⟩
        else if res.rest ≠ [] then .error ⟨fname, "nonnumeric characters", arg, name⟩
        else if has flags GN_NONNEG ∧ res.val < 0 then
          .error ⟨fname, "negative value not allowed", arg, name⟩
        else if has flags GN_GT_0 ∧ res.val ≤ 0 then
          .error ⟨fname, "value must be > 0", arg, name⟩
        else .ok res.val

def getLong (arg : Option (List UInt8)) (flags : BitVec 32) (name : Option (List UInt8)) :
    Except GnFail Int :=
  getNum "getLong" arg flags name

def intMin : Int := -(2 ^ 31)

def intMax : Int := 2 ^ 31 - 1

def getInt (arg : Option (List UInt8)) (flags : BitVec 32) (name : Option (List UInt8)) :
    Except GnFail Int :=
  match getNum "getInt" arg flags name with
  | .error f => .error f
  | .ok res =>
      if intMax < res ∨ res < intMin then .error ⟨"getInt", "integer out of range", arg, name⟩
      else .ok res

/-! ## What is accepted -/

/-- A value of the sign that the flags ask for. -/
def Allowed (flags : BitVec 32) (v : Int) : Prop :=
  (has flags GN_NONNEG → 0 ≤ v) ∧ (has flags GN_GT_0 → 0 < v)

instance (flags : BitVec 32) (v : Int) : Decidable (Allowed flags v) :=
  inferInstanceAs (Decidable (_ ∧ _))

variable {fname : String} {arg name : Option (List UInt8)} {flags : BitVec 32} {s : List UInt8}
  {v : Int}

theorem base_le (flags : BitVec 32) : base flags ≤ 36 := by
  unfold base
  split_ifs <;> decide

theorem getNum_eq_ok_iff : getNum fname arg flags name = .ok v ↔
    ∃ s, arg = some s ∧ Numeral (base flags) s v ∧ longMin ≤ v ∧ v ≤ longMax ∧
      Allowed flags v := by
  constructor
  · intro h
    rcases arg with - | s
    · cases h
    · simp only [getNum] at h
      split_ifs at h with hs herange hrest hnonneg hpos
      obtain rfl := Except.ok.inj h
      obtain ⟨hnumeral, hmin, hmax⟩ := (Strtol.strtol_iff (base_le flags)).mp
        ⟨hs, Bool.eq_false_iff.mpr herange, not_not.mp hrest, rfl⟩
      exact ⟨s, rfl, hnumeral, hmin, hmax, fun hflag ↦ not_lt.mp fun hv ↦ hnonneg ⟨hflag, hv⟩,
        fun hflag ↦ not_le.mp fun hv ↦ hpos ⟨hflag, hv⟩⟩
  · rintro ⟨s, rfl, hnumeral, hmin, hmax, hnonneg, hpos⟩
    obtain ⟨hs, herange, hrest, hval⟩ := (Strtol.strtol_iff (base_le flags)).mpr
      ⟨hnumeral, hmin, hmax⟩
    simp only [getNum]
    rw [if_neg hs, if_neg (by simp [herange]), if_neg (not_not.mpr hrest), hval,
      if_neg fun h ↦ not_lt.mpr (hnonneg h.1) h.2, if_neg fun h ↦ not_le.mpr (hpos h.1) h.2]

theorem getInt_eq_ok : getInt arg flags name = .ok v ↔
    getNum "getInt" arg flags name = .ok v ∧ intMin ≤ v ∧ v ≤ intMax := by
  rw [getInt]
  cases getNum "getInt" arg flags name with
  | error f => simp
  | ok res =>
      simp only
      split
      · next hrange =>
          simp only [reduceCtorEq, Except.ok.injEq, false_iff]
          rintro ⟨rfl, hmin, hmax⟩
          omega
      · next hrange =>
          simp only [Except.ok.injEq]
          constructor
          · rintro rfl
            exact ⟨rfl, by omega, by omega⟩
          · exact fun h ↦ h.1

/-- **What `getInt` accepts**: the numerals for the values that are allowed. -/
theorem getInt_eq_ok_iff : getInt arg flags name = .ok v ↔
    ∃ s, arg = some s ∧ Numeral (base flags) s v ∧ intMin ≤ v ∧ v ≤ intMax ∧
      Allowed flags v := by
  have hlong : intMin ≤ v → v ≤ intMax → longMin ≤ v ∧ v ≤ longMax := by
    unfold intMin intMax longMin longMax
    omega
  rw [getInt_eq_ok, getNum_eq_ok_iff]
  constructor
  · rintro ⟨⟨s, hs, hnumeral, -, -, hallowed⟩, hmin, hmax⟩
    exact ⟨s, hs, hnumeral, hmin, hmax, hallowed⟩
  · rintro ⟨s, hs, hnumeral, hmin, hmax, hallowed⟩
    obtain ⟨hlmin, hlmax⟩ := hlong hmin hmax
    exact ⟨⟨s, hs, hnumeral, hlmin, hlmax, hallowed⟩, hmin, hmax⟩

/-- **A printed number comes back**, with base `10` or any. -/
theorem getInt_decimal (hbase : base flags = 10 ∨ base flags = 0) (hmin : intMin ≤ v)
    (hmax : v ≤ intMax) (hallowed : Allowed flags v) :
    getInt (some (decimal v)) flags name = .ok v :=
  getInt_eq_ok_iff.mpr ⟨_, rfl, Strtol.numeral_decimal hbase v, hmin, hmax, hallowed⟩

theorem getInt_decimal_seven : getInt (some (decimal (-7))) GN_ANY_BASE none = .ok (-7) :=
  getInt_decimal (.inr rfl) (by decide) (by decide) (by decide)

/-! ## What is refused -/

/-- The message for the value of a numeral. -/
def complaint (flags : BitVec 32) (v : Int) : Option String :=
  if v < longMin ∨ longMax < v then some "strtol() failed"
  else if has flags GN_NONNEG ∧ v < 0 then some "negative value not allowed"
  else if has flags GN_GT_0 ∧ v ≤ 0 then some "value must be > 0"
  else if intMax < v ∨ v < intMin then some "integer out of range"
  else none

/-- **The message for a numeral**: a value that does not fit in a `long` comes first, then the
sign, and last an `int` that it does not fit in. -/
theorem getInt_numeral (h : Numeral (base flags) s v) : getInt (some s) flags name =
    match complaint flags v with
    | some msg => .error ⟨"getInt", msg, some s, name⟩
    | none => .ok v := by
  have hnum : getNum "getInt" (some s) flags name =
      if v < longMin ∨ longMax < v then .error ⟨"getInt", "strtol() failed", some s, name⟩
      else if has flags GN_NONNEG ∧ v < 0 then
        .error ⟨"getInt", "negative value not allowed", some s, name⟩
      else if has flags GN_GT_0 ∧ v ≤ 0 then .error ⟨"getInt", "value must be > 0", some s, name⟩
      else .ok v := by
    simp only [getNum, if_neg h.ne_nil, h.strtol (base_le flags), decide_eq_true_eq]
    by_cases hlong : v < longMin ∨ longMax < v
    · rw [if_pos hlong, if_pos hlong]
    · rw [if_neg hlong, if_neg hlong, if_neg (by simp), min_eq_right (by omega),
        max_eq_right (by omega)]
  rw [getInt, hnum, complaint]
  split_ifs <;> simp_all

/-- A string that is neither empty nor a numeral, and does not begin with a number that is too
large, has nonnumeric characters. -/
theorem getInt_not_numeral (hs : s ≠ []) (h : ∀ v, ¬ Numeral (base flags) s v) :
    getInt (some s) flags name = .error ⟨"getInt",
      if (Strtol.strtol s (base flags)).erange then "strtol() failed"
      else "nonnumeric characters", some s, name⟩ := by
  have hrest : (Strtol.strtol s (base flags)).rest ≠ [] := fun hrest ↦ by
    obtain ⟨v, hv⟩ := Strtol.exists_numeral (base_le flags) hs hrest
    exact h v hv
  rw [getInt, getNum]
  simp only [if_neg hs, if_pos hrest]
  split_ifs <;> rfl

/-- What is wrong with an argument. -/
inductive Diagnosis (flags : BitVec 32) : Option (List UInt8) → String → Prop
  | null : Diagnosis flags none "null or empty string"
  | empty : Diagnosis flags (some []) "null or empty string"
  | numeral {s : List UInt8} {v : Int} {msg : String} (h : Numeral (base flags) s v)
      (hmsg : complaint flags v = some msg) : Diagnosis flags (some s) msg
  | tooLarge {s : List UInt8} (h : ∀ v, ¬ Numeral (base flags) s v)
      (herange : (Strtol.strtol s (base flags)).erange = true) :
      Diagnosis flags (some s) "strtol() failed"
  | nonnumeric {s : List UInt8} (hs : s ≠ []) (h : ∀ v, ¬ Numeral (base flags) s v)
      (herange : (Strtol.strtol s (base flags)).erange = false) :
      Diagnosis flags (some s) "nonnumeric characters"

theorem Diagnosis.getInt {msg : String} (h : Diagnosis flags arg msg) :
    getInt arg flags name = .error ⟨"getInt", msg, arg, name⟩ := by
  cases h with
  | null => rfl
  | empty => rfl
  | numeral h hmsg => rw [getInt_numeral h, hmsg]
  | @tooLarge s h herange =>
      have hs : s ≠ [] := by
        rintro rfl
        cases herange
      rw [getInt_not_numeral hs h, if_pos herange]
  | nonnumeric hs h herange => rw [getInt_not_numeral hs h, herange]; rfl

/-- Nothing is refused without a diagnosis. -/
theorem exists_diagnosis (name : Option (List UInt8)) (h : ∀ v, getInt arg flags name ≠ .ok v) :
    ∃ msg, Diagnosis flags arg msg := by
  rcases arg with - | s
  · exact ⟨_, .null⟩
  · by_cases hs : s = []
    · subst hs
      exact ⟨_, .empty⟩
    · by_cases hnumeral : ∃ v, Numeral (base flags) s v
      · obtain ⟨v, hv⟩ := hnumeral
        cases hmsg : complaint flags v with
        | some msg => exact ⟨msg, .numeral hv hmsg⟩
        | none => exact absurd (by rw [getInt_numeral hv, hmsg]) (h v)
      · rw [not_exists] at hnumeral
        cases herange : (Strtol.strtol s (base flags)).erange with
        | true => exact ⟨_, .tooLarge hnumeral herange⟩
        | false => exact ⟨_, .nonnumeric hs hnumeral herange⟩

/-- **What `getInt` says** to an argument that it refuses. -/
theorem getInt_eq_error_iff {f : GnFail} : getInt arg flags name = .error f ↔
    ∃ msg, Diagnosis flags arg msg ∧ f = ⟨"getInt", msg, arg, name⟩ := by
  constructor
  · intro h
    obtain ⟨msg, hmsg⟩ := exists_diagnosis name fun v hv ↦ by
      rw [h] at hv
      cases hv
    rw [hmsg.getInt] at h
    exact ⟨msg, hmsg, (Except.error.inj h).symm⟩
  · rintro ⟨msg, hmsg, rfl⟩
    exact hmsg.getInt

/-! ## `atoi` -/

/-- **`getInt` and `atoi` agree**, on what `getInt` accepts. -/
theorem atoi_of_getInt (hbase : base flags = 10) (h : getInt (some s) flags name = .ok v) :
    MsgSeq.atoi s = BitVec.ofInt 32 v ∧ (MsgSeq.atoi s).toInt = v := by
  obtain ⟨t, ht, hnumeral, hmin, hmax, -⟩ := getInt_eq_ok_iff.mp h
  obtain rfl := Option.some.inj ht
  rw [hbase] at hnumeral
  have hval := congrArg Strtol.Converted.val (hnumeral.strtol (by decide))
  have hv : Strtol.atoi s = v := by
    rw [Strtol.atoi, hval]
    unfold intMin intMax longMin longMax at *
    dsimp only
    rw [Int.bmod_eq_of_le] <;> omega
  rw [MsgSeq.atoi, hv]
  refine ⟨rfl, ?_⟩
  rw [BitVec.toInt_ofInt, Int.bmod_eq_of_le] <;> unfold intMin intMax at * <;> omega

theorem atoi_of_getInt_twelve : getInt (some [49, 50]) GN_GT_0 none = .ok 12 ∧
    MsgSeq.atoi [49, 50] = BitVec.ofInt 32 12 ∧ (MsgSeq.atoi [49, 50]).toInt = 12 :=
  ⟨rfl, atoi_of_getInt rfl (show getInt (some [49, 50]) GN_GT_0 none = .ok 12 from rfl)⟩

end SysProg.FifoSeq
