/-
  Kanagawa.Library.FloatFormat

  Bit patterns of a binary floating-point format (`numeric/float/internal.k`).

  A pattern has a sign, a biased exponent and the bits of the significand below its leading one.
  With denormals off, every pattern of exponent zero is a zero.
-/
import Kanagawa.Library.Integers

namespace Kanagawa.Library

open Frontend

/-- The template arguments of a format.  The pattern of one is a normal number, and inference takes
    a left shift by the number of fraction bits, which has fewer than twenty bits itself. -/
structure Format where
  mantissaWidth : Nat
  exponentWidth : Nat
  bias : Nat
  mantissaWidth_pos : 0 < mantissaWidth
  bias_pos : 0 < bias
  bias_lt : bias + 1 < 2 ^ exponentWidth
  fractionBit_lt : widthOf (tSub (IntValue.const mantissaWidth).type
    (tSub (.unsigned exponentWidth) (IntValue.const bias).type)) < 20

/-- `Denorm`. -/
inductive Denorm where
  | on | off
  deriving DecidableEq

/-- `floatPackedFormat`. -/
structure FloatPackedFormat (f : Format) where
  mantissa : BitVec f.mantissaWidth
  exponent : BitVec f.exponentWidth
  sign : BitVec 1
  deriving DecidableEq

/-- `specialCaseFlags`. -/
structure SpecialCaseFlags where
  nan : Bool
  zero : Bool
  inf : Bool
  finite : Bool

variable {f : Format}

/-- `getSpecialCases_internal`. -/
def getSpecialCases (denorm : Denorm) (a : FloatPackedFormat f) : SpecialCaseFlags :=
  let nonfiniteValue := BitVec.ofInt f.exponentWidth (2 ^ f.exponentWidth - 1)
  { nan := a.exponent == nonfiniteValue && a.mantissa != 0
    inf := a.exponent == nonfiniteValue && a.mantissa == 0
    finite := a.exponent != nonfiniteValue
    zero := match denorm with
      | .on => a.exponent == 0 && a.mantissa == 0
      | .off => a.exponent == 0 }

namespace FloatPackedFormat

/-! ## The number of a pattern -/

/-- The significand of a normal number, with its leading one. -/
def significand (x : FloatPackedFormat f) : Nat := 2 ^ f.mantissaWidth + x.mantissa.toNat

/-- The absolute value of a finite pattern. -/
def magnitude (denorm : Denorm) (x : FloatPackedFormat f) : ℚ :=
  if x.exponent = 0 then
    if denorm = .on then x.mantissa.toNat * 2 ^ (1 - f.bias - f.mantissaWidth : ℤ) else 0
  else x.significand * 2 ^ (x.exponent.toNat - f.bias - f.mantissaWidth : ℤ)

/-- The value of a finite pattern. -/
def value (denorm : Denorm) (x : FloatPackedFormat f) : ℚ :=
  if x.sign = 0 then x.magnitude denorm else -x.magnitude denorm

variable {denorm : Denorm} {x : FloatPackedFormat f}

theorem exponentWidth_pos (f : Format) : 0 < f.exponentWidth := by
  have hlt := f.bias_lt
  rcases Nat.eq_zero_or_pos f.exponentWidth with h | h
  · rw [h] at hlt
    omega
  · exact h

theorem nonfiniteValue_toNat (w : Nat) : (BitVec.ofInt w (2 ^ w - 1)).toNat = 2 ^ w - 1 := by
  have hpow := Nat.two_pow_pos w
  have hcast : (2 ^ w - 1 : ℤ) = ((2 ^ w - 1 : Nat) : ℤ) := by
    push_cast [Nat.one_le_two_pow]
    ring
  rw [hcast, BitVec.ofInt_natCast, BitVec.toNat_ofNat, Nat.mod_eq_of_lt (by omega)]

theorem finite_iff (x : FloatPackedFormat f) :
    (getSpecialCases denorm x).finite = true ↔ x.exponent.toNat + 1 < 2 ^ f.exponentWidth := by
  have hlt := x.exponent.isLt
  show (x.exponent != _) = true ↔ _
  rw [bne_iff_ne, ne_eq, ← BitVec.toNat_inj, nonfiniteValue_toNat]
  omega

theorem inf_iff (x : FloatPackedFormat f) :
    (getSpecialCases denorm x).inf = true ↔
      x.exponent.toNat = 2 ^ f.exponentWidth - 1 ∧ x.mantissa.toNat = 0 := by
  show (x.exponent == _ && x.mantissa == 0) = true ↔ _
  rw [Bool.and_eq_true, beq_iff_eq, beq_iff_eq, ← BitVec.toNat_inj, ← BitVec.toNat_inj,
    nonfiniteValue_toNat]
  rfl

theorem zero_iff (x : FloatPackedFormat f) :
    (getSpecialCases denorm x).zero = true ↔
      x.exponent = 0 ∧ (denorm = .on → x.mantissa = 0) := by
  cases denorm with
  | on => simp [getSpecialCases]
  | off => simp [getSpecialCases]

theorem exponent_eq_zero_iff : x.exponent = 0 ↔ x.exponent.toNat = 0 := by
  rw [← BitVec.toNat_inj]
  exact Iff.rfl

theorem magnitude_of_pos (h : 0 < x.exponent.toNat) :
    x.magnitude denorm =
      x.significand * 2 ^ (x.exponent.toNat - f.bias - f.mantissaWidth : ℤ) := by
  rw [magnitude, if_neg]
  rw [exponent_eq_zero_iff]
  omega

/-- The fraction bits of a normal number divide its significand. -/
theorem magnitude_eq_div (h : 0 < x.exponent.toNat) {k : Nat}
    (hk : x.exponent.toNat + k = f.mantissaWidth + f.bias) :
    x.magnitude denorm = x.significand / 2 ^ k := by
  have hexp : (x.exponent.toNat - f.bias - f.mantissaWidth : ℤ) = -(k : ℤ) := by omega
  rw [magnitude_of_pos h, hexp, zpow_neg, zpow_natCast, div_eq_mul_inv]

theorem magnitude_nonneg (denorm : Denorm) (x : FloatPackedFormat f) : 0 ≤ x.magnitude denorm := by
  rw [magnitude]
  split
  · split
    · positivity
    · exact le_rfl
  · positivity

theorem two_pow_le_significand (x : FloatPackedFormat f) : 2 ^ f.mantissaWidth ≤ x.significand :=
  Nat.le_add_right _ _

theorem significand_lt (x : FloatPackedFormat f) : x.significand < 2 ^ (f.mantissaWidth + 1) := by
  have hlt := x.mantissa.isLt
  rw [significand, Nat.pow_succ]
  omega

/-- What is denormal, or zero, is below the smallest normal number. -/
theorem magnitude_of_exponent_eq_zero (h : x.exponent = 0) (denorm : Denorm) :
    x.magnitude denorm = (if denorm = .on then x.mantissa.toNat else 0 : Nat) /
      2 ^ (f.mantissaWidth + f.bias - 1) := by
  rw [magnitude, if_pos h]
  have hpos := f.bias_pos
  by_cases hon : denorm = .on
  · have hexp : (1 - f.bias - f.mantissaWidth : ℤ) =
        -((f.mantissaWidth + f.bias - 1 : Nat) : ℤ) := by omega
    rw [if_pos hon, if_pos hon, hexp, zpow_neg, zpow_natCast, div_eq_mul_inv]
  · rw [if_neg hon, if_neg hon, Nat.cast_zero, zero_div]

end FloatPackedFormat

end Kanagawa.Library
