/-
  Kanagawa.Lib.BitFields

  Fields of a machine word.

  A field is some bits of a word from a position on.  Writing a value that fits
  into a field is seen by reading the field, and by no field beside it.
-/
import Mathlib

namespace Kanagawa.Lib.BitFields

variable {n shift bits shift' bits' : Nat} {w v : BitVec n}

/-- The bits of a field. -/
def fieldMask (n shift bits : Nat) : BitVec n := (1#n <<< bits - 1#n) <<< shift

/-- A word with a value in a field. -/
def setField (mask : BitVec n) (shift : Nat) (w v : BitVec n) : BitVec n :=
  w &&& ~~~mask ||| v <<< shift

/-- The value of a field. -/
def getField (mask : BitVec n) (shift : Nat) (w : BitVec n) : BitVec n := (w &&& mask) >>> shift

theorem getLsbD_ones (hbits : bits < n) (i : Nat) :
    (1#n <<< bits - 1#n).getLsbD i = decide (i < bits) := by
  have hpow : 2 ^ bits < 2 ^ n := Nat.pow_lt_pow_right (by decide) hbits
  have hpos := Nat.two_pow_pos bits
  have hone : 1 % 2 ^ n = 1 := Nat.mod_eq_of_lt (by omega)
  have hvalue : (1#n <<< bits - 1#n).toNat = 2 ^ bits - 1 := by
    rw [BitVec.toNat_sub, BitVec.toNat_shiftLeft, BitVec.toNat_ofNat, hone, Nat.one_shiftLeft,
      Nat.mod_eq_of_lt hpow, show 2 ^ n - 1 + 2 ^ bits = 2 ^ bits - 1 + 2 ^ n by omega,
      Nat.add_mod_right, Nat.mod_eq_of_lt (by omega)]
  rw [← BitVec.testBit_toNat, hvalue, Nat.testBit_two_pow_sub_one]

theorem getLsbD_fieldMask (hbits : bits < n) {i : Nat} (hi : i < n) :
    (fieldMask n shift bits).getLsbD i = decide (shift ≤ i ∧ i < shift + bits) := by
  rw [fieldMask, BitVec.getLsbD_shiftLeft, getLsbD_ones hbits, decide_eq_true hi, Bool.true_and]
  by_cases hshift : i < shift
  · simp [hshift, show ¬shift ≤ i by omega]
  · have hiff : i - shift < bits ↔ i < shift + bits := by omega
    simp [hshift, show shift ≤ i by omega, hiff]

/-- A value that fits has no bits beyond its field. -/
theorem getLsbD_of_fits (hv : v.toNat < 2 ^ bits) {i : Nat} (hi : bits ≤ i) :
    v.getLsbD i = false := by
  rw [← BitVec.testBit_toNat]
  exact Nat.testBit_lt_two_pow (hv.trans_le (Nat.pow_le_pow_right (by decide) hi))

/-- A field holds what is written to it. -/
theorem getField_setField_self (hbits : bits < n) (hfit : shift + bits ≤ n)
    (hv : v.toNat < 2 ^ bits) :
    getField (fieldMask n shift bits) shift (setField (fieldMask n shift bits) shift w v) = v := by
  refine BitVec.eq_of_getLsbD_eq fun i hi => ?_
  rw [getField, BitVec.getLsbD_ushiftRight, BitVec.getLsbD_and, setField, BitVec.getLsbD_or,
    BitVec.getLsbD_and, BitVec.getLsbD_not, BitVec.getLsbD_shiftLeft]
  rcases Nat.lt_or_ge i bits with hlt | hge
  · have hin : shift + i < n := by omega
    rw [getLsbD_fieldMask hbits hin]
    simp [hin, hlt]
  · rw [getLsbD_of_fits hv hge]
    rcases Nat.lt_or_ge (shift + i) n with hin | hout
    · rw [getLsbD_fieldMask hbits hin]
      simp [show ¬i < bits by omega]
    · rw [BitVec.getLsbD_of_ge (fieldMask n shift bits) _ hout, Bool.and_false]

/-- A field beside the one that is written keeps its value. -/
theorem getField_setField_other (hbits : bits < n) (hbits' : bits' < n)
    (hv : v.toNat < 2 ^ bits) (hdisjoint : shift + bits ≤ shift' ∨ shift' + bits' ≤ shift) :
    getField (fieldMask n shift' bits') shift' (setField (fieldMask n shift bits) shift w v)
      = getField (fieldMask n shift' bits') shift' w := by
  refine BitVec.eq_of_getLsbD_eq fun i _ => ?_
  rw [getField, getField, BitVec.getLsbD_ushiftRight, BitVec.getLsbD_ushiftRight,
    BitVec.getLsbD_and, BitVec.getLsbD_and, setField, BitVec.getLsbD_or, BitVec.getLsbD_and,
    BitVec.getLsbD_not, BitVec.getLsbD_shiftLeft]
  rcases Nat.lt_or_ge (shift' + i) n with hin | hout
  · rw [getLsbD_fieldMask hbits hin, getLsbD_fieldMask hbits' hin, decide_eq_true hin]
    by_cases hfield : i < bits'
    · -- The bit is outside the field that is written
      have hother : ¬(shift ≤ shift' + i ∧ shift' + i < shift + bits) := by omega
      have hvalue : (!decide (shift' + i < shift) && v.getLsbD (shift' + i - shift)) = false := by
        by_cases hlow : shift' + i < shift
        · simp [hlow]
        · rw [getLsbD_of_fits hv (by omega), Bool.and_false]
      simp [hother, hvalue]
    · simp [hfield]
  · simp [show ¬shift' + i < n by omega, BitVec.getLsbD_of_ge w _ hout]

end Kanagawa.Lib.BitFields
