import Mathlib.Algebra.Order.Field.Power
import Mathlib.Data.Nat.Log
import Mathlib.Data.Rat.Floor
import Mathlib.Tactic.FieldSimp

/-!
# Decimals through binary64

A decimal number is read as the nearest binary64 value, with ties to the even mantissa.
Integers below 2^53 are read exactly; the first one that is not is 2^53 + 1.

## Implementation notes

All finite binary64 values are multiples of 2^-1074. A magnitude is its number of these
units, so that reading is computed in natural numbers. Numbers beyond the
range are not told apart here, a reader refuses them before.
-/

namespace PmxAgents.Lib.Binary64

/-- A mantissa times a power of ten. -/
structure Decimal where
  mantissa : ℤ
  exponent : ℤ
  deriving DecidableEq, Repr

/-- The number of binary places of the unit. -/
@[irreducible] def unitPlaces : ℕ := 1074

/-- The number of units in one. -/
def one : ℕ := 2 ^ unitPlaces

/-! ## Reading -/

/-- The integer nearest to a quotient, with ties to even. -/
def roundDiv (n d : ℕ) : ℕ :=
  if d < 2 * (n % d) ∨ 2 * (n % d) = d ∧ n / d % 2 = 1 then n / d + 1 else n / d

/-- The magnitude nearest to a number of units: a mantissa of 53 bits, or fewer at the bottom of the
range. -/
def roundUnits (n d : ℕ) : ℕ :=
  let shift := Nat.log2 (n / d) - 52
  roundDiv n (d * 2 ^ shift) * 2 ^ shift

/-- The magnitude that is read from a mantissa and an exponent. -/
def readUnits (mantissa : ℕ) (exponent : ℤ) : ℕ :=
  if 0 ≤ exponent then roundUnits (mantissa * 10 ^ exponent.toNat * one) 1
  else roundUnits (mantissa * one) (10 ^ (-exponent).toNat)

/-- A binary64 value: a sign and a magnitude. -/
structure Float64 where
  negative : Bool
  units : ℕ
  deriving DecidableEq, Repr

def Decimal.parse (x : Decimal) : Float64 :=
  ⟨x.mantissa < 0, readUnits x.mantissa.natAbs x.exponent⟩

/-! ## Integers that survive -/

theorem one_pos : 0 < one := Nat.two_pow_pos unitPlaces

theorem roundDiv_of_dvd {n d : ℕ} (hd : 0 < d) (h : d ∣ n) : roundDiv n d = n / d := by
  have hmod : n % d = 0 := Nat.mod_eq_zero_of_dvd h
  rw [roundDiv, hmod, if_neg (by omega)]

theorem div_le_roundDiv (n d : ℕ) : n / d ≤ roundDiv n d := by
  rw [roundDiv]
  split_ifs <;> omega

/-- How far the last place of the mantissa is from the unit. -/
theorem shift_le {n k : ℕ} (hn : n < 2 ^ (53 + k)) : Nat.log2 n - 52 ≤ k := by
  rcases Nat.eq_zero_or_pos n with rfl | hpos
  · rw [Nat.log2_zero]
    omega
  · have hlog := (Nat.log2_lt hpos.ne').mpr hn
    omega

/-- Multiples of a power of two with a mantissa of 53 bits are exact. -/
theorem roundUnits_of_lt {n : ℕ} (hn : n < 2 ^ 53) (k : ℕ) :
    roundUnits (n * 2 ^ k) 1 = n * 2 ^ k := by
  have hlt : n * 2 ^ k < 2 ^ (53 + k) := by
    rw [Nat.pow_add]
    exact Nat.mul_lt_mul_of_pos_right hn (Nat.two_pow_pos k)
  have hdvd : 2 ^ (Nat.log2 (n * 2 ^ k) - 52) ∣ n * 2 ^ k :=
    (Nat.pow_dvd_pow 2 (shift_le hlt)).mul_left n
  simp only [roundUnits, Nat.div_one, Nat.one_mul]
  rw [roundDiv_of_dvd (Nat.two_pow_pos _) hdvd, Nat.div_mul_cancel hdvd]

/-! ## The error of rounding -/

theorem roundDiv_mul_bounds (n : ℕ) {d : ℕ} (hd : 0 < d) :
    2 * n ≤ 2 * (roundDiv n d * d) + d ∧ 2 * (roundDiv n d * d) ≤ 2 * n + d := by
  have hdiv := Nat.div_add_mod n d
  rw [Nat.mul_comm] at hdiv
  rw [roundDiv]
  split_ifs with hup
  · rw [Nat.add_mul, Nat.one_mul]
    have hmod := Nat.mod_lt n hd
    omega
  · omega

/-- Half a unit of the last place is the most by which a value is off. -/
theorem roundUnits_bounds {n k : ℕ} (hn : n < 2 ^ (53 + k)) :
    2 * n ≤ 2 * roundUnits n 1 + 2 ^ k ∧ 2 * roundUnits n 1 ≤ 2 * n + 2 ^ k := by
  have hplace : 2 ^ (Nat.log2 n - 52) ≤ 2 ^ k := Nat.pow_le_pow_right (by decide) (shift_le hn)
  obtain ⟨hle, hge⟩ := roundDiv_mul_bounds n (Nat.two_pow_pos (Nat.log2 n - 52))
  simp only [roundUnits, Nat.div_one, Nat.one_mul]
  omega

/-- A multiple of the last place below a number is not above its rounding. -/
theorem mul_le_roundUnits {m n k : ℕ} (hn : n < 2 ^ (53 + k)) (hm : m * 2 ^ k ≤ n) :
    m * 2 ^ k ≤ roundUnits n 1 := by
  have hdvd : 2 ^ (Nat.log2 n - 52) ∣ m * 2 ^ k :=
    (Nat.pow_dvd_pow 2 (shift_le hn)).mul_left m
  simp only [roundUnits, Nat.div_one, Nat.one_mul]
  calc m * 2 ^ k = m * 2 ^ k / 2 ^ (Nat.log2 n - 52) * 2 ^ (Nat.log2 n - 52) :=
        (Nat.div_mul_cancel hdvd).symm
    _ ≤ n / 2 ^ (Nat.log2 n - 52) * 2 ^ (Nat.log2 n - 52) :=
        Nat.mul_le_mul_right _ (Nat.div_le_div_right hm)
    _ ≤ roundDiv n (2 ^ (Nat.log2 n - 52)) * 2 ^ (Nat.log2 n - 52) :=
        Nat.mul_le_mul_right _ (div_le_roundDiv n _)

/-- The last place of a value divides it. -/
theorem dvd_of_roundUnits {n k : ℕ} (hn : roundUnits n 1 = n) (hk : 2 ^ (52 + k) ≤ n) :
    2 ^ k ∣ n := by
  have hpos : n ≠ 0 := (lt_of_lt_of_le (Nat.two_pow_pos _) hk).ne'
  have hlog : 52 + k ≤ Nat.log2 n := (Nat.le_log2 hpos).mpr hk
  have hdvd : 2 ^ (Nat.log2 n - 52) ∣ roundUnits n 1 := by
    simp only [roundUnits, Nat.div_one, Nat.one_mul]
    exact Nat.dvd_mul_left _ _
  rw [hn] at hdvd
  exact (Nat.pow_dvd_pow 2 (by omega)).trans hdvd

/-! ## Numbers as they are compared -/

/-- A finite number: its magnitude is one of those to which others are rounded. -/
structure Finite where
  negative : Bool
  units : ℕ
  exact : roundUnits units 1 = units
  deriving DecidableEq

/-- The numbers of the format. A zero with a sign equals the one without. -/
inductive Number where
  | finite (x : Finite)
  | infinite (negative : Bool)
  | nan
  deriving DecidableEq

def Finite.signed (x : Finite) : ℤ := if x.negative then -x.units else x.units

def Number.lt : Number → Number → Bool
  | .finite x, .finite y => x.signed < y.signed
  | .finite _, .infinite negative => !negative
  | .infinite negative, .finite _ => negative
  | .infinite negative, .infinite other => negative && !other
  | _, _ => false

def Number.le : Number → Number → Bool
  | .finite x, .finite y => x.signed ≤ y.signed
  | .finite _, .infinite negative => !negative
  | .infinite negative, .finite _ => negative
  | .infinite negative, .infinite other => negative || !other
  | _, _ => false

/-- An integer of at most 53 bits. -/
def Finite.ofNat (n : ℕ) (hn : n < 2 ^ 53) : Finite :=
  ⟨false, n * one, roundUnits_of_lt hn unitPlaces⟩

theorem Finite.signed_ofNat (n : ℕ) (hn : n < 2 ^ 53) :
    (Finite.ofNat n hn).signed = ((n * one : ℕ) : ℤ) :=
  rfl

end PmxAgents.Lib.Binary64
