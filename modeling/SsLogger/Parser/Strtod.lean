import Mathlib.Data.List.Basic
import Mathlib.Algebra.Group.Nat.Basic

set_option autoImplicit false

/-! # `strtod`

`ParseNumber` hands `std::stod` a string of digits, `.` and `-`. libstdc++'s `std::stod` calls
`strtod`, which reads the longest prefix of the form `-?d*(.d*)?` with a digit in it, and rounds the
decimal it spells to the nearest `double`, ties to even (glibc's `strtod` rounds correctly).
`std::stod` throws `std::invalid_argument` when `strtod` reads nothing, and `std::out_of_range`
when it sets `ERANGE`.

`strtod` sets `ERANGE` on overflow, when the rounded magnitude reaches `2^1024`, and on underflow.
C leaves the underflow case to the implementation; glibc sets it when the result is tiny and
inexact, tininess being judged after rounding to 53 bits with an unbounded exponent (x86), that is
below `(2^54 - 1) * 2^-1076`. Both are modelled.

Every finite `double` is a multiple of `2^-1074`, so rounding is done in units of `2^-1074`: the
value `x` is `num / den` units, and the `double`s near it are the multiples of `2^s` units, where
`s` is `0` below `2^53` units (the subnormals and the first binade) and keeps 53 binary digits
above. A `double` is kept as its exact value, a `Decimal`: an integer with no fractional digits,
any other value over `10^1074`.

Integers up to `2^53` are read exactly (`roundToDouble_int`), and a value of `2^1024` or more makes
`strtod` set `ERANGE` (`roundToDouble_overflow`). -/

namespace SsLogger.Parser

/-! ## Reading the decimal -/

/-- A number as a decimal: `(-1)^neg * mantissa / 10^scale`. -/
structure Decimal where
  neg : Bool
  mantissa : Nat
  scale : Nat
  deriving DecidableEq, Repr

/-- The value of a list of decimal digits. -/
def digitsValue (ds : List Char) : Nat :=
  ds.foldl (fun n d => 10 * n + (d.toNat - '0'.toNat)) 0

/-- The subject sequence `strtod` reads from `ParseNumber`'s characters (digits, `.` and `-`
only): the longest prefix `-?d*(.d*)?` with a digit in it, as the decimal it spells; `none` where
there is none and `strtod` reads nothing. -/
def readDecimal (cs : List Char) : Option Decimal :=
  let neg := cs.head? = some '-'
  let cs := if neg then cs.drop 1 else cs
  let intPart := cs.takeWhile Char.isDigit
  let fracPart :=
    match cs.dropWhile Char.isDigit with
    | '.' :: r => r.takeWhile Char.isDigit
    | _ => []
  if intPart = [] ∧ fracPart = [] then none
  else some ⟨neg, digitsValue (intPart ++ fracPart), fracPart.length⟩

/-! ## Rounding to binary64 -/

/-- The number of binary digits of `n`, counted by halving it, with `fuel` halvings at most. -/
def bitLengthAux : Nat → Nat → Nat
  | 0, _ => 0
  | fuel + 1, n => if n = 0 then 0 else bitLengthAux fuel (n / 2) + 1

/-- The number of binary digits of `n`. -/
def bitLength (n : Nat) : Nat := bitLengthAux n n

/-- The number of binary digits of `⌊x⌋` for `x = N * 2^1074 / D` units: `x` is `N / D`, and
`k` is `⌊log₂ x⌋` or one more. -/
def lengthInUnits (N D : Nat) : Nat :=
  let k := bitLength N + 1074 - bitLength D
  if D * 2 ^ k ≤ N * 2 ^ 1074 then k + 1 else k

/-- The spacing of the `double`s at `N / D`, as a power of two in units: `2^s`, with `s = 0` below
`2^53` units. -/
def shiftOf (N D : Nat) : Nat := lengthInUnits N D - 53

/-- `num / den` rounded to the nearest integer, ties to even. -/
def rne (num den : Nat) : Nat :=
  if den < 2 * (num % den) ∨ 2 * (num % den) = den ∧ num / den % 2 = 1 then num / den + 1
  else num / den

/-- The exact value of `r` units of `2^-1074`, as a `Decimal`. -/
def ofUnits (neg : Bool) (r : Nat) : Decimal :=
  if r % 2 ^ 1074 = 0 then ⟨neg, r / 2 ^ 1074, 0⟩ else ⟨neg, r * 5 ^ 1074, 1074⟩

/-- `strtod`'s rounding of the decimal `d`: the nearest `double`, ties to even, or `none` where
`strtod` sets `ERANGE`, on overflow (the rounded magnitude reaches `2^1024`, `2^2098` units) or on
underflow (the value is tiny and the rounding inexact). -/
def roundToDouble (d : Decimal) : Option Decimal :=
  let num := d.mantissa * 2 ^ 1074
  let den := 10 ^ d.scale * 2 ^ shiftOf d.mantissa (10 ^ d.scale)
  let r := rne num den * 2 ^ shiftOf d.mantissa (10 ^ d.scale)
  if 2 ^ 2098 ≤ r then none
  else if 4 * num < (2 ^ 54 - 1) * 10 ^ d.scale ∧ num % den ≠ 0 then none
  else some (ofUnits d.neg r)

/-! ## Lengths -/

@[simp] theorem bitLengthAux_zero (fuel : Nat) : bitLengthAux fuel 0 = 0 := by
  cases fuel <;> simp [bitLengthAux]

theorem bitLengthAux_spec : ∀ fuel n, n ≤ fuel → 0 < n →
    2 ^ bitLengthAux fuel n ≤ 2 * n ∧ n < 2 ^ bitLengthAux fuel n
  | 0, _, h, hn => absurd hn (by omega)
  | fuel + 1, n, h, hn => by
    rw [bitLengthAux, if_neg (by omega), Nat.pow_succ]
    by_cases h2 : n / 2 = 0
    · rw [h2, bitLengthAux_zero]; omega
    · obtain ⟨h₁, h₂⟩ := bitLengthAux_spec fuel (n / 2) (by omega) (by omega)
      omega

/-- `n` has `bitLength n` binary digits: `2^(L-1) ≤ n < 2^L`. -/
theorem bitLength_spec {n : Nat} (hn : 0 < n) : 2 ^ bitLength n ≤ 2 * n ∧ n < 2 ^ bitLength n :=
  bitLengthAux_spec n n le_rfl hn

/-- With no truncation in `k`, `x = N * 2^1074 / D` has `lengthInUnits N D` binary digits:
`2^(L-1) ≤ x < 2^L`. -/
theorem lengthInUnits_spec {N D : Nat} (hN : 0 < N) (hD : 0 < D)
    (hb : bitLength D ≤ bitLength N + 1074) :
    D * 2 ^ lengthInUnits N D ≤ 2 * (N * 2 ^ 1074) ∧ N * 2 ^ 1074 < D * 2 ^ lengthInUnits N D := by
  obtain ⟨hN₁, hN₂⟩ := bitLength_spec hN
  obtain ⟨hD₁, hD₂⟩ := bitLength_spec hD
  -- `2^b * 2^k = 2^a * 2^1074`, for `a` and `b` the lengths of `N` and `D`
  have hk : 2 ^ bitLength D * 2 ^ (bitLength N + 1074 - bitLength D) =
      2 ^ bitLength N * 2 ^ 1074 := by
    rw [← Nat.pow_add, ← Nat.pow_add]; congr 1; omega
  have hlt : D * 2 ^ (bitLength N + 1074 - bitLength D) < 2 ^ bitLength N * 2 ^ 1074 := by
    rw [← hk]; exact Nat.mul_lt_mul_of_pos_right hD₂ (Nat.two_pow_pos _)
  have hN' : 2 ^ bitLength N * 2 ^ 1074 ≤ 2 * (N * 2 ^ 1074) := by
    rw [← Nat.mul_assoc]; exact Nat.mul_le_mul_right _ hN₁
  have hN'' : N * 2 ^ 1074 < 2 ^ bitLength N * 2 ^ 1074 :=
    Nat.mul_lt_mul_of_pos_right hN₂ (Nat.two_pow_pos _)
  have hD' : 2 ^ bitLength D * 2 ^ (bitLength N + 1074 - bitLength D) ≤
      2 * (D * 2 ^ (bitLength N + 1074 - bitLength D)) := by
    rw [← Nat.mul_assoc]; exact Nat.mul_le_mul_right _ hD₁
  dsimp only [lengthInUnits]
  split_ifs with h
  · rw [Nat.pow_succ, ← Nat.mul_assoc]; constructor <;> omega
  · constructor <;> omega

/-! ## Rounding -/

theorem div_le_rne (num den : Nat) : num / den ≤ rne num den := by
  unfold rne; split_ifs <;> omega

/-- A quotient with no remainder is its own rounding. -/
theorem rne_of_dvd {num den : Nat} (hd : 0 < den) (h : den ∣ num) : rne num den = num / den := by
  rw [rne, Nat.mod_eq_zero_of_dvd h, if_neg (by omega)]

/-- Integers up to `2^53` are `double`s: `strtod` reads them exactly. -/
theorem roundToDouble_int (neg : Bool) {n : Nat} (hn : n ≤ 2 ^ 53) :
    roundToDouble ⟨neg, n, 0⟩ = some ⟨neg, n, 0⟩ := by
  -- the spacing `2^s` of the `double`s at `n` divides `n * 2^1074`
  have hs : 2 ^ shiftOf n 1 ∣ n * 2 ^ 1074 := by
    rcases Nat.eq_zero_or_pos n with rfl | hpos
    · rw [Nat.zero_mul]; exact Nat.dvd_zero _
    obtain ⟨hL, -⟩ := lengthInUnits_spec hpos Nat.one_pos
      (by rw [show bitLength 1 = 1 from rfl]; omega)
    rw [Nat.one_mul] at hL
    have h1128 : 2 * (2 ^ 53 * 2 ^ 1074) = 2 ^ 1128 := by rw [← Nat.pow_add, ← Nat.pow_succ']
    rcases Nat.lt_or_eq_of_le hn with hn | rfl
    · have hlt : 2 * (n * 2 ^ 1074) < 2 ^ 1128 := by
        rw [← h1128]
        exact Nat.mul_lt_mul_of_pos_left (Nat.mul_lt_mul_of_pos_right hn (Nat.two_pow_pos _))
          (by decide)
      have := (Nat.pow_lt_pow_iff_right (by decide : 1 < 2)).1 (lt_of_le_of_lt hL hlt)
      exact Nat.dvd_trans (Nat.pow_dvd_pow 2 (by unfold shiftOf; omega)) (Nat.dvd_mul_left _ _)
    · rw [h1128] at hL
      have := (Nat.pow_le_pow_iff_right (by decide : 1 < 2)).1 hL
      rw [← Nat.pow_add]
      exact Nat.pow_dvd_pow 2 (by unfold shiftOf; omega)
  have hr : rne (n * 2 ^ 1074) (2 ^ shiftOf n 1) * 2 ^ shiftOf n 1 = n * 2 ^ 1074 := by
    rw [rne_of_dvd (Nat.two_pow_pos _) hs, Nat.div_mul_cancel hs]
  have hover : ¬ 2 ^ 2098 ≤ n * 2 ^ 1074 := by
    have h₁ : n * 2 ^ 1074 ≤ 2 ^ 53 * 2 ^ 1074 := Nat.mul_le_mul_right _ hn
    have h₂ : 2 ^ 53 * 2 ^ 1074 < 2 ^ 2098 := by
      rw [← Nat.pow_add]; exact Nat.pow_lt_pow_right (by decide) (by decide)
    omega
  simp only [roundToDouble, Nat.pow_zero, Nat.one_mul, hr, if_neg hover,
    Nat.mod_eq_zero_of_dvd hs, ne_eq, not_true_eq_false, and_false, if_false, ofUnits,
    Nat.mul_mod_left, Nat.mul_div_cancel _ (Nat.two_pow_pos 1074), if_true]

/-- `9007199254740993 = 2^53 + 1` lies halfway between two `double`s and rounds to the even one,
`2^53`; `2^53 + 3` rounds up to `2^53 + 4`. -/
example : roundToDouble ⟨false, 9007199254740993, 0⟩ = some ⟨false, 9007199254740992, 0⟩ ∧
    roundToDouble ⟨true, 9007199254740995, 0⟩ = some ⟨true, 9007199254740996, 0⟩ := by
  set_option exponentiation.threshold 2200 in decide

/-- `0.5` is a `double`, kept over `10^1074`; `10^-400` is below the least subnormal, so the
rounding is inexact and `strtod` sets `ERANGE`. -/
example : roundToDouble ⟨false, 5, 1⟩ = some ⟨false, 2 ^ 1073 * 5 ^ 1074, 1074⟩ ∧
    roundToDouble ⟨false, 1, 400⟩ = none := by
  set_option exponentiation.threshold 2200 in set_option maxRecDepth 8000 in decide

/-- From the first binade up, the rounding keeps the leading binary digit of `x`: the rounded
value is at least `2^(L-1)` units, for `L = lengthInUnits N D`. -/
theorem pow_le_rounded {N D : Nat} (hD : 0 < D)
    (hL : D * 2 ^ lengthInUnits N D ≤ 2 * (N * 2 ^ 1074)) (h53 : 53 ≤ lengthInUnits N D) :
    2 ^ (lengthInUnits N D - 1) ≤ rne (N * 2 ^ 1074) (D * 2 ^ shiftOf N D) * 2 ^ shiftOf N D := by
  have hsplit : 2 ^ (lengthInUnits N D - 1) = 2 ^ 52 * 2 ^ shiftOf N D := by
    rw [← Nat.pow_add]; unfold shiftOf; congr 1; omega
  -- the quotient by the spacing `2^s` is at least `2^52`
  have hq : 2 ^ 52 ≤ N * 2 ^ 1074 / (D * 2 ^ shiftOf N D) := by
    rw [Nat.le_div_iff_mul_le (Nat.mul_pos hD (Nat.two_pow_pos _))]
    rw [show lengthInUnits N D = lengthInUnits N D - 1 + 1 by omega, Nat.pow_succ, hsplit,
      Nat.mul_comm _ 2, Nat.mul_left_comm D 2, Nat.mul_left_comm D] at hL
    omega
  rw [hsplit]
  exact Nat.mul_le_mul_right _ (hq.trans (div_le_rne _ _))

/-- A value of `2^1024` or more overflows: `strtod` sets `ERANGE`. -/
theorem roundToDouble_overflow (neg : Bool) {N S : Nat} (h : 2 ^ 1024 * 10 ^ S ≤ N) :
    roundToDouble ⟨neg, N, S⟩ = none := by
  have hD : 0 < 10 ^ S := Nat.pos_pow_of_pos S (by decide)
  have hN : 0 < N := lt_of_lt_of_le (Nat.mul_pos (Nat.two_pow_pos _) hD) h
  -- `N ≥ D`, so the length of `D` is at most that of `N`
  have hb : bitLength (10 ^ S) ≤ bitLength N + 1074 := by
    obtain ⟨hD₁, -⟩ := bitLength_spec hD
    obtain ⟨-, hN₂⟩ := bitLength_spec hN
    have : 10 ^ S ≤ N := le_trans (Nat.le_mul_of_pos_left _ (Nat.two_pow_pos _)) h
    have := (Nat.pow_lt_pow_iff_right (by decide : 1 < 2)).1 (lt_of_le_of_lt hD₁ (by omega) :
      2 ^ bitLength (10 ^ S) < 2 ^ (bitLength N + 1))
    omega
  obtain ⟨hL₁, hL₂⟩ := lengthInUnits_spec hN hD hb
  -- `x ≥ 2^2098` units, so `x` has more than 2098 binary digits
  have hx : 10 ^ S * 2 ^ 2098 ≤ N * 2 ^ 1074 := by
    calc 10 ^ S * 2 ^ 2098 = 2 ^ 1024 * 10 ^ S * 2 ^ 1074 := by
          rw [show (2 : Nat) ^ 2098 = 2 ^ 1024 * 2 ^ 1074 by rw [← Nat.pow_add],
            Nat.mul_comm (2 ^ 1024) (10 ^ S), Nat.mul_assoc]
      _ ≤ N * 2 ^ 1074 := Nat.mul_le_mul_right _ h
  have hlen : 2098 < lengthInUnits N (10 ^ S) :=
    (Nat.pow_lt_pow_iff_right (by decide : 1 < 2)).1
      (Nat.lt_of_mul_lt_mul_left (lt_of_le_of_lt hx hL₂))
  have hr : 2 ^ 2098 ≤
      rne (N * 2 ^ 1074) (10 ^ S * 2 ^ shiftOf N (10 ^ S)) * 2 ^ shiftOf N (10 ^ S) :=
    (Nat.pow_le_pow_right (by decide) (by omega)).trans (pow_le_rounded hD hL₁ (by omega))
  simp only [roundToDouble, if_pos hr]

end SsLogger.Parser
