import Mathlib.Data.List.TakeWhile
import SysProg.Lib.Text

/-!
# `strtol`

`strtol` skips white space, takes a sign, finds out the base and converts the digits that follow;
it reports where it has stopped, and whether the number fits in a `long`.  Strings are without
their terminating NUL.

* `Numeral base s v` is the grammar: `s` is a numeral for `v`, and nothing else.
* `strtol_iff`: `strtol` converts the whole of a string that is not empty exactly if it is a
  numeral.
* `numeral_decimal`: what `%d` prints is a numeral.
-/

namespace SysProg.Lib.Strtol

/-! ## The conversion -/

/-- `isspace` in the C locale. -/
def isSpace (c : UInt8) : Bool := c = 32 || (9 ≤ c && c ≤ 13)

/-- The value of a byte as a digit: figures, then letters of both cases; `36` for the others. -/
def digit (c : UInt8) : Nat :=
  if 48 ≤ c.toNat ∧ c.toNat ≤ 57 then c.toNat - 48
  else if 97 ≤ c.toNat ∧ c.toNat ≤ 122 then c.toNat - 87
  else if 65 ≤ c.toNat ∧ c.toNat ≤ 90 then c.toNat - 55
  else 36

def isDigit (b : Nat) (c : UInt8) : Bool := digit c < b

/-- The value of a string of digits. -/
def value (b : Nat) (ds : List UInt8) : Nat := ds.foldl (fun n c ↦ b * n + digit c) 0

/-- A numeral to base `16`, or of any base, may begin with `0x`. -/
def hexPrefix (base : Nat) : List UInt8 → Bool
  | 48 :: x :: _ => (base = 0 || base = 16) && (x = 120 || x = 88)
  | _ => false

/-- The base of the digits. -/
def baseOf (base : Nat) (s : List UInt8) : Nat :=
  if hexPrefix base s then 16
  else if base = 0 then (if s.head? = some 48 then 8 else 10)
  else base

/-- What is left behind the `0x`. -/
def behind (base : Nat) (s : List UInt8) : List UInt8 := if hexPrefix base s then s.drop 2 else s

/-- The number at the beginning of a string and what comes after it; `none` without digits. -/
def magnitude (base : Nat) (s : List UInt8) : Option (Nat × List UInt8) :=
  let b := baseOf base s
  let u := behind base s
  if u.takeWhile (isDigit b) = [] then none
  else some (value b (u.takeWhile (isDigit b)), u.dropWhile (isDigit b))

/-- A sign, if there is one: whether it is a minus, and what comes after it. -/
def sign : List UInt8 → Bool × List UInt8
  | 45 :: s => (true, s)
  | 43 :: s => (false, s)
  | s => (false, s)

def signed (negative : Bool) (n : Nat) : Int := if negative then -n else n

def longMin : Int := -(2 ^ 63)

def longMax : Int := 2 ^ 63 - 1

/-- What `strtol` returns, `*endptr`, and whether `errno` is `ERANGE`. -/
structure Converted where
  val : Int
  rest : List UInt8
  erange : Bool
deriving DecidableEq

/-- `strtol(s, &endptr, base)`.  Without digits nothing has been converted, except the `0` of a
bare `0x`, and `errno` is left alone. -/
def strtol (s : List UInt8) (base : Nat) : Converted :=
  let (negative, t) := sign (s.dropWhile isSpace)
  match magnitude base t with
  | none => ⟨0, if hexPrefix base t then t.drop 1 else s, false⟩
  | some (n, rest) =>
      let v := signed negative n
      ⟨max longMin (min longMax v), rest, decide (v < longMin ∨ longMax < v)⟩

/-- `atoi`, which is `strtol` cut to an `int`. -/
def atoi (s : List UInt8) : Int := (strtol s 10).val.bmod (2 ^ 32)

/-! ## The grammar -/

/-- Digits in base `b`. -/
structure Digits (b : Nat) (s : List UInt8) (n : Nat) : Prop where
  ne_nil : s ≠ []
  isDigit : ∀ c ∈ s, isDigit b c
  value : value b s = n

/-- A numeral without a sign, to the base that `strtol` is given. -/
inductive Unsigned : Nat → List UInt8 → Nat → Prop
  | given {base s n} (hbase : base ≠ 0) (h : Digits base s n) : Unsigned base s n
  | hex {base x s n} (hbase : base = 0 ∨ base = 16) (hx : x = 120 ∨ x = 88) (h : Digits 16 s n) :
      Unsigned base (48 :: x :: s) n
  | octal {s n} (hs : s.head? = some 48) (h : Digits 8 s n) : Unsigned 0 s n
  | decimal {s n} (hs : s.head? ≠ some 48) (h : Digits 10 s n) : Unsigned 0 s n

inductive Signed (base : Nat) : List UInt8 → Int → Prop
  | none {s n} (h : Unsigned base s n) : Signed base s n
  | plus {s n} (h : Unsigned base s n) : Signed base (43 :: s) n
  | minus {s n} (h : Unsigned base s n) : Signed base (45 :: s) (-n)

/-- **A numeral** for `v`: white space, then an optional sign and the number. -/
def Numeral (base : Nat) (s : List UInt8) (v : Int) : Prop :=
  ∃ spaces t, s = spaces ++ t ∧ (∀ c ∈ spaces, isSpace c) ∧ Signed base t v

variable {b base n : Nat} {s t : List UInt8} {v : Int} {c : UInt8}

/-! ## Digits -/

theorem Digits.takeWhile (h : Digits b s n) : s.takeWhile (Strtol.isDigit b) = s :=
  List.takeWhile_eq_self_iff.mpr h.isDigit

theorem Digits.dropWhile (h : Digits b s n) : s.dropWhile (Strtol.isDigit b) = [] :=
  List.dropWhile_eq_nil_iff.mpr h.isDigit

/-- A byte that is a digit in some base up to `36`. -/
theorem Digits.digit_head (hb : b ≤ 36) (h : Digits b (c :: s) n) : digit c < 36 :=
  (of_decide_eq_true (h.isDigit c List.mem_cons_self)).trans_le hb

theorem digit_of_isSpace (h : isSpace c) : digit c = 36 := by
  have hc : c.toNat = 32 ∨ 9 ≤ c.toNat ∧ c.toNat ≤ 13 := by
    simp only [isSpace, Bool.or_eq_true, decide_eq_true_eq, Bool.and_eq_true] at h
    rcases h with rfl | ⟨h9, h13⟩
    · exact .inl rfl
    · exact .inr ⟨UInt8.le_iff_toNat_le.mp h9, UInt8.le_iff_toNat_le.mp h13⟩
  rw [digit, if_neg (by omega), if_neg (by omega), if_neg (by omega)]

/-- The digits of a decimal number are the figures. -/
theorem isDigit_ten (c : UInt8) : isDigit 10 c = (48 ≤ c && c ≤ 57) := by
  rw [isDigit, Bool.eq_iff_iff, decide_eq_true_eq, Bool.and_eq_true, decide_eq_true_eq,
    decide_eq_true_eq, UInt8.le_iff_toNat_le, UInt8.le_iff_toNat_le, digit]
  show _ ↔ 48 ≤ c.toNat ∧ c.toNat ≤ 57
  split_ifs with hfigure hlower hupper <;> omega

/-! ## Numbers without a sign -/

theorem hexPrefix_iff : hexPrefix base s ↔
    ∃ x t, s = 48 :: x :: t ∧ (base = 0 ∨ base = 16) ∧ (x = 120 ∨ x = 88) := by
  constructor
  · intro h
    unfold hexPrefix at h
    split at h
    · next x t => exact ⟨x, t, rfl, by simpa using h⟩
    · cases h
  · rintro ⟨x, t, rfl, hbase, hx⟩
    simpa [hexPrefix] using ⟨hbase, hx⟩

/-- An `x` is not a digit of a base that has the prefix `0x`. -/
theorem Digits.hexPrefix_eq_false (hb : b ≤ 16) (h : Digits b s n) : hexPrefix base s = false := by
  rw [Bool.eq_false_iff, Ne, hexPrefix_iff]
  rintro ⟨x, t, rfl, -, hx⟩
  have hlt := of_decide_eq_true (h.isDigit x (by simp))
  rcases hx with rfl | rfl
  · exact absurd (hlt.trans_le hb) (by decide)
  · exact absurd (hlt.trans_le hb) (by decide)

theorem magnitude_eq_iff : magnitude base s = some (n, []) ↔
    Digits (baseOf base s) (behind base s) n := by
  have hall : (behind base s).dropWhile (isDigit (baseOf base s)) = [] →
      (behind base s).takeWhile (isDigit (baseOf base s)) = behind base s := fun h ↦
    List.takeWhile_eq_self_iff.mpr (List.dropWhile_eq_nil_iff.mp h)
  rw [magnitude]
  constructor
  · intro h
    obtain ⟨hne, h⟩ := Option.ite_none_left_eq_some.mp h
    obtain ⟨hvalue, hrest⟩ := Prod.mk.inj (Option.some.inj h)
    rw [hall hrest] at hne hvalue
    exact ⟨hne, List.dropWhile_eq_nil_iff.mp hrest, hvalue⟩
  · intro h
    rw [h.takeWhile, h.dropWhile, if_neg h.ne_nil, h.value]

/-- The first digits of `strtol` make up the whole string exactly if it is a numeral. -/
theorem magnitude_iff : magnitude base s = some (n, []) ↔ Unsigned base s n := by
  rw [magnitude_eq_iff]
  constructor
  · intro h
    by_cases hhex : hexPrefix base s
    · obtain ⟨x, t, rfl, hbase, hx⟩ := hexPrefix_iff.mp hhex
      rw [baseOf, behind, if_pos hhex, if_pos hhex] at h
      exact .hex hbase hx h
    · rw [baseOf, behind, if_neg hhex, if_neg hhex] at h
      by_cases hbase : base = 0
      · subst hbase
        rw [if_pos rfl] at h
        by_cases hs : s.head? = some 48
        · exact .octal hs (by rwa [if_pos hs] at h)
        · exact .decimal hs (by rwa [if_neg hs] at h)
      · exact .given hbase (by rwa [if_neg hbase] at h)
  · intro h
    cases h with
    | given hbase h =>
        have hhex : hexPrefix base s = false := by
          by_cases hb : base ≤ 16
          · exact h.hexPrefix_eq_false hb
          · rw [Bool.eq_false_iff, Ne, hexPrefix_iff]
            rintro ⟨x, t, -, rfl | rfl, -⟩
            · exact hbase rfl
            · exact hb le_rfl
        simpa [baseOf, behind, hhex, hbase] using h
    | @hex _ x t _ hbase hx h =>
        have hhex : hexPrefix base (48 :: x :: t) := hexPrefix_iff.mpr ⟨x, t, rfl, hbase, hx⟩
        simpa [baseOf, behind, hhex] using h
    | octal hs h => simpa [baseOf, behind, h.hexPrefix_eq_false (by decide), hs] using h
    | decimal hs h => simpa [baseOf, behind, h.hexPrefix_eq_false (by decide), hs] using h

/-- A number without a sign begins with a digit. -/
theorem Unsigned.digit_head (hbase : base ≤ 36) (h : Unsigned base (c :: s) n) :
    digit c < 36 := by
  cases h with
  | given _ h => exact h.digit_head hbase
  | hex => decide
  | octal _ h => exact h.digit_head (by decide)
  | decimal _ h => exact h.digit_head (by decide)

theorem Unsigned.ne_nil (h : Unsigned base s n) : s ≠ [] := by
  cases h with
  | given _ h => exact h.ne_nil
  | hex => exact List.cons_ne_nil _ _
  | octal _ h => exact h.ne_nil
  | decimal _ h => exact h.ne_nil

/-! ## Signs and white space -/

theorem sign_of_ne (hminus : c ≠ 45) (hplus : c ≠ 43) : sign (c :: s) = (false, c :: s) := by
  rw [sign]
  · exact fun t ht ↦ hminus (List.cons.inj ht).1
  · exact fun t ht ↦ hplus (List.cons.inj ht).1

theorem Unsigned.sign (hbase : base ≤ 36) (h : Unsigned base s n) : sign s = (false, s) := by
  cases s with
  | nil => rfl
  | cons c s =>
      have hc := h.digit_head hbase
      refine sign_of_ne ?_ ?_
      · rintro rfl
        exact absurd hc (by decide)
      · rintro rfl
        exact absurd hc (by decide)

theorem signed_iff (hbase : base ≤ 36) : Signed base t v ↔
    ∃ n, magnitude base (sign t).2 = some (n, []) ∧ signed (sign t).1 n = v := by
  constructor
  · intro h
    cases h with
    | none h => exact ⟨_, by rwa [h.sign hbase, magnitude_iff], by rw [h.sign hbase]; rfl⟩
    | plus h => exact ⟨_, magnitude_iff.mpr h, rfl⟩
    | minus h => exact ⟨_, magnitude_iff.mpr h, rfl⟩
  · rintro ⟨n, hmag, rfl⟩
    rw [magnitude_iff] at hmag
    rcases t with - | ⟨c, t⟩
    · exact absurd rfl hmag.ne_nil
    · by_cases hminus : c = 45
      · subst hminus
        exact .minus hmag
      · by_cases hplus : c = 43
        · subst hplus
          exact .plus hmag
        · rw [sign_of_ne hminus hplus] at hmag ⊢
          exact .none hmag

/-- What follows the white space before a number is not white space. -/
theorem Signed.isSpace_head (hbase : base ≤ 36) (h : Signed base (c :: s) v) :
    isSpace c = false := by
  rw [Bool.eq_false_iff]
  intro hc
  have hdigit := digit_of_isSpace hc
  cases h with
  | none h => exact absurd (h.digit_head hbase) (by omega)
  | plus => exact absurd hc (by decide)
  | minus => exact absurd hc (by decide)

theorem Signed.ne_nil (h : Signed base t v) : t ≠ [] := by
  cases h with
  | none h => exact h.ne_nil
  | plus => exact List.cons_ne_nil _ _
  | minus => exact List.cons_ne_nil _ _

theorem numeral_iff (hbase : base ≤ 36) :
    Numeral base s v ↔ Signed base (s.dropWhile isSpace) v := by
  constructor
  · rintro ⟨spaces, t, rfl, hspaces, ht⟩
    rw [List.dropWhile_append_of_pos hspaces]
    rcases t with - | ⟨c, t⟩
    · exact absurd rfl ht.ne_nil
    · rwa [List.dropWhile_cons_of_neg (by simp [ht.isSpace_head hbase])]
  · intro h
    refine ⟨_, _, List.takeWhile_append_dropWhile.symm, fun c hc ↦ ?_, h⟩
    exact List.all_eq_true.mp List.all_takeWhile c hc

theorem Numeral.ne_nil (h : Numeral base s v) : s ≠ [] := by
  obtain ⟨spaces, t, rfl, -, ht⟩ := h
  exact List.append_ne_nil_of_right_ne_nil _ ht.ne_nil

/-! ## What `strtol` converts -/

/-- The conversion of a numeral. -/
theorem Numeral.strtol (hbase : base ≤ 36) (h : Numeral base s v) : strtol s base =
    ⟨max longMin (min longMax v), [], decide (v < longMin ∨ longMax < v)⟩ := by
  obtain ⟨n, hn, rfl⟩ := (signed_iff hbase).mp ((numeral_iff hbase).mp h)
  rw [Strtol.strtol]
  simp only [hn]

/-- What `strtol` returns, with or without digits. -/
theorem strtol_val (s : List UInt8) (base : Nat) : (strtol s base).val =
    max longMin (min longMax (signed (sign (s.dropWhile isSpace)).1
      ((magnitude base (sign (s.dropWhile isSpace)).2).elim 0 Prod.fst))) := by
  rw [strtol]
  rcases sign (s.dropWhile isSpace) with ⟨negative, t⟩
  simp only
  rcases magnitude base t with - | ⟨n, rest⟩
  · cases negative <;> rfl
  · rfl

/-- Where `strtol` comes to the end of a string that is not empty, it is a numeral. -/
theorem exists_numeral (hbase : base ≤ 36) (hs : s ≠ []) (hrest : (strtol s base).rest = []) :
    ∃ v, Numeral base s v := by
  have hnone : magnitude base (sign (s.dropWhile isSpace)).2 ≠ none := by
    intro hnone
    rw [strtol] at hrest
    simp only [hnone] at hrest
    split at hrest
    · next hhex =>
        obtain ⟨x, t, ht, -⟩ := hexPrefix_iff.mp hhex
        rw [ht] at hrest
        exact absurd hrest (List.cons_ne_nil _ _)
    · exact hs hrest
  obtain ⟨⟨n, rest⟩, hn⟩ := Option.ne_none_iff_exists'.mp hnone
  rw [strtol] at hrest
  simp only [hn] at hrest
  subst hrest
  exact ⟨_, (numeral_iff hbase).mpr ((signed_iff hbase).mpr ⟨n, hn, rfl⟩)⟩

/-- **`strtol` converts the whole of a string, without an overflow, exactly if it is a numeral
for a `long`.** -/
theorem strtol_iff (hbase : base ≤ 36) : (s ≠ [] ∧ (strtol s base).erange = false ∧
      (strtol s base).rest = [] ∧ (strtol s base).val = v) ↔
    Numeral base s v ∧ longMin ≤ v ∧ v ≤ longMax := by
  constructor
  · rintro ⟨hs, herange, hrest, hval⟩
    obtain ⟨w, hw⟩ := exists_numeral hbase hs hrest
    rw [hw.strtol hbase] at herange hval
    have hrange := of_decide_eq_false herange
    have hwv : w = v := by
      rw [← hval]
      simp only
      omega
    subst hwv
    exact ⟨hw, by omega, by omega⟩
  · rintro ⟨h, hmin, hmax⟩
    rw [h.strtol hbase]
    refine ⟨h.ne_nil, decide_eq_false (by omega), rfl, ?_⟩
    simp only
    omega

/-! ## What `printf` writes -/

theorem digit_digitByte {d : Nat} (hd : d < 16) : digit (digitByte d) = d := by
  revert d
  decide

theorem value_printed (hb : 2 ≤ b) (hb16 : b ≤ 16) (n : Nat) :
    value b ((Nat.digits b n).reverse.map digitByte) = n := by
  have hdigit : ∀ d ∈ Nat.digits b n, ∀ m, b * m + digit (digitByte d) = d + b * m := by
    intro d hd m
    rw [digit_digitByte ((Nat.digits_lt_base (by omega) hd).trans_le hb16), Nat.add_comm]
  calc value b ((Nat.digits b n).reverse.map digitByte)
      = (Nat.digits b n).foldr (fun d m ↦ b * m + digit (digitByte d)) 0 := by
        rw [value, List.foldl_map, List.foldl_reverse]
    _ = (Nat.digits b n).foldr (fun d m ↦ d + b * m) 0 := List.foldr_ext _ _ _ hdigit
    _ = Nat.ofDigits b (Nat.digits b n) := (Nat.ofDigits_eq_foldr b _).symm
    _ = n := Nat.ofDigits_digits b n

/-- A printed number consists of digits. -/
theorem digits_printed (hb : 2 ≤ b) (hb16 : b ≤ 16) (n : Nat) : Digits b (printed b n) n := by
  refine ⟨printed_ne_nil b n, fun c hc ↦ ?_, ?_⟩
  · rw [printed] at hc
    split at hc
    · obtain rfl := List.mem_singleton.mp hc
      exact decide_eq_true (show 0 < b by omega)
    · obtain ⟨d, hd, rfl⟩ := List.mem_map.mp hc
      have hlt := Nat.digits_lt_base (by omega) (List.mem_reverse.mp hd)
      rw [isDigit, digit_digitByte (by omega)]
      exact decide_eq_true hlt
  · rw [printed]
    split
    · next hn => exact hn.symm
    · exact value_printed hb hb16 n

/-- What `%d` prints begins with `0` for `0` alone. -/
theorem head?_printed (n : Nat) (hn : n ≠ 0) : (printed 10 n).head? ≠ some 48 := by
  intro hhead
  rw [printed, if_neg hn, List.head?_map, List.head?_reverse, Option.map_eq_some_iff] at hhead
  obtain ⟨d, hd, hbyte⟩ := hhead
  have hlast := Nat.getLast_digit_ne_zero 10 hn
  rw [List.getLast?_eq_getLast_of_ne_nil (Nat.digits_ne_nil_iff_ne_zero.mpr hn)] at hd
  rw [Option.some.inj hd] at hlast
  have hlt : d < 10 := Nat.digits_lt_base (by decide) (List.mem_of_getLast? (by
    rw [List.getLast?_eq_getLast_of_ne_nil (Nat.digits_ne_nil_iff_ne_zero.mpr hn), hd]))
  have hdigit := digit_digitByte (hlt.trans (by decide))
  rw [hbyte] at hdigit
  exact hlast hdigit.symm

/-- **What `%d` prints is a numeral**, in base `10` as in any. -/
theorem numeral_decimal (hbase : base = 10 ∨ base = 0) (v : Int) : Numeral base (decimal v) v := by
  have hunsigned : Unsigned base (printed 10 v.natAbs) v.natAbs := by
    have hdigits := digits_printed (b := 10) (by decide) (by decide) v.natAbs
    rcases hbase with rfl | rfl
    · exact .given (by decide) hdigits
    · by_cases hv : v.natAbs = 0
      · rw [hv]
        exact .octal rfl (digits_printed (by decide) (by decide) 0)
      · exact .decimal (head?_printed _ hv) hdigits
  refine ⟨[], decimal v, rfl, fun _ hc ↦ absurd hc List.not_mem_nil, ?_⟩
  rw [decimal]
  split
  · have hminus := Signed.minus hunsigned
    rwa [show -(v.natAbs : Int) = v by omega] at hminus
  · have hnone := Signed.none hunsigned
    rwa [show (v.natAbs : Int) = v by omega] at hnone

/-! ## Numbers with something behind them -/

/-- The digits of a number end where there is another character. -/
theorem magnitude_append (hb : b ≠ 0) (h : Digits b s n) {rest : List UInt8}
    (hrest : ∀ c ∈ rest.head?, isDigit b c = false) (hhex : hexPrefix b (s ++ rest) = false) :
    magnitude b (s ++ rest) = some (n, rest) := by
  have htake : rest.takeWhile (isDigit b) = [] := by
    cases rest with
    | nil => rfl
    | cons c rest => exact List.takeWhile_cons_of_neg (by simp [hrest c rfl])
  have hdrop : rest.dropWhile (isDigit b) = rest := by
    cases rest with
    | nil => rfl
    | cons c rest => exact List.dropWhile_cons_of_neg (by simp [hrest c rfl])
  have hbase : baseOf b (s ++ rest) = b := by simp [baseOf, hhex, hb]
  have hbehind : behind b (s ++ rest) = s ++ rest := by simp [behind, hhex]
  rw [magnitude]
  simp only [hbase, hbehind]
  rw [List.takeWhile_append_of_pos h.isDigit, List.dropWhile_append_of_pos h.isDigit, htake, hdrop,
    List.append_nil, if_neg h.ne_nil, h.value]

theorem hexPrefix_ten (s : List UInt8) : hexPrefix 10 s = false := by
  rw [Bool.eq_false_iff, Ne, hexPrefix_iff]
  rintro ⟨x, t, -, hbase, -⟩
  exact absurd hbase (by decide)

/-- What begins with a digit begins neither with white space nor with a sign. -/
theorem sign_of_digit (hc : digit c < 36) :
    (c :: s).dropWhile isSpace = c :: s ∧ sign (c :: s) = (false, c :: s) := by
  constructor
  · refine List.dropWhile_cons_of_neg fun hspace ↦ ?_
    rw [digit_of_isSpace hspace] at hc
    exact absurd hc (by decide)
  · refine sign_of_ne ?_ ?_
    · rintro rfl
      exact absurd hc (by decide)
    · rintro rfl
      exact absurd hc (by decide)

/-- **A printed `long` is read back**, with white space before and something else behind it. -/
theorem strtol_decimal {spaces rest : List UInt8} (hspaces : ∀ c ∈ spaces, isSpace c)
    (hmin : longMin ≤ v) (hmax : v ≤ longMax) (hrest : ∀ c ∈ rest.head?, isDigit 10 c = false) :
    (strtol (spaces ++ (decimal v ++ rest)) 10).val = v := by
  have hdigits := digits_printed (b := 10) (by decide) (by decide) v.natAbs
  have hmag := magnitude_append (by decide) hdigits hrest (hexPrefix_ten _)
  have hclamp : max longMin (min longMax v) = v := by omega
  rw [strtol_val, List.dropWhile_append_of_pos hspaces, decimal]
  split
  · next hneg =>
      have hsign : sign (45 :: (printed 10 v.natAbs ++ rest)) =
          (true, printed 10 v.natAbs ++ rest) := rfl
      rw [List.cons_append, List.dropWhile_cons_of_neg (by decide), hsign]
      simp only [hmag, Option.elim_some]
      show max longMin (min longMax (-(v.natAbs : Int))) = v
      rw [show -(v.natAbs : Int) = v by omega, hclamp]
  · next hneg =>
      obtain ⟨c, ds, hprinted⟩ := List.exists_cons_of_ne_nil (printed_ne_nil 10 v.natAbs)
      rw [hprinted] at hdigits hmag ⊢
      obtain ⟨hdrop, hsign⟩ := sign_of_digit (s := ds ++ rest) (hdigits.digit_head (by decide))
      rw [List.cons_append] at hmag ⊢
      rw [hdrop, hsign]
      simp only [hmag, Option.elim_some]
      show max longMin (min longMax (v.natAbs : Int)) = v
      rw [show (v.natAbs : Int) = v by omega, hclamp]

/-- **A printed `int` is read back** by `atoi`. -/
theorem atoi_decimal {spaces rest : List UInt8} (hspaces : ∀ c ∈ spaces, isSpace c)
    (hmin : -(2 ^ 31) ≤ v) (hmax : v < 2 ^ 31) (hrest : ∀ c ∈ rest.head?, isDigit 10 c = false) :
    atoi (spaces ++ (decimal v ++ rest)) = v := by
  have hlong : longMin ≤ v ∧ v ≤ longMax := by
    unfold longMin longMax
    omega
  rw [atoi, strtol_decimal hspaces hlong.1 hlong.2 hrest]
  rw [Int.bmod_eq_of_le] <;> omega

end SysProg.Lib.Strtol
