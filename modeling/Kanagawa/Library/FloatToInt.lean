/-
  Kanagawa.Library.FloatToInt

  Floating-point numbers as integers (`float_to_int`, `numeric/float/internal.k`).

  The significand is shifted by the unbiased exponent and cut off.  The least value of a signed
  type is a case of its own: it is taken only without a fraction, and a left shift to it is
  corrected as if it had overflowed.
-/
import Kanagawa.Arith.Exact
import Kanagawa.Library.FloatRounding
import Kanagawa.Library.IntToFloat

namespace Kanagawa.Library

open Frontend FloatPackedFormat Lib.NearestEven Lib.TwosComplement

variable {f : Format}

/-! ## The function -/

/-- `~cast<uint<w>>(0)`. -/
def allOnes (w : Nat) : IntValue := ((IntValue.const 0).cast (.unsigned w)).invert

/-- `to_is_signed`. -/
def toIsSigned (To : Ty) : Bool := decide (((IntValue.const 0).cast To).invert.value < 0)

/-- What is left of `valid` for a normal number. -/
def validExponent (To : Ty) (unbiasedExponent mantissa sign : IntValue) : Bool :=
  if unbiasedExponent.value ≥ widthOf To then false
  else if !decide (unbiasedExponent.value < widthOf To - 1) && toIsSigned To &&
      decide (unbiasedExponent.value = widthOf To - 1) &&
      !(decide (mantissa.value = 0) && decide (sign.value = 1)) then false
  else true

/-- `result`, before the sign. -/
def integerPart (f : Format) (To : Ty) (fullMantissa unbiasedExponent : IntValue) : IntValue :=
  if unbiasedExponent.value > f.mantissaWidth then
    let shift := unbiasedExponent.sub (.const f.mantissaWidth)
    let result := (fullMantissa.shiftLeftBy shift).result.cast To
    if result.value < 0 then result.invert.cast To else result
  else
    let shift := (IntValue.const f.mantissaWidth).sub unbiasedExponent
    (fullMantissa.shiftRightBy shift).result.cast To

/-- `float_to_int`, on the bits of the number. -/
def floatToInt (f : Format) (To : Ty) (floatAsUint : IntValue) : Bool × IntValue :=
  let sign := (floatAsUint.shiftRight (f.mantissaWidth + f.exponentWidth)).cast (.unsigned 1)
  let exponent := ((floatAsUint.shiftRight f.mantissaWidth).and (allOnes f.exponentWidth)).cast
    (.unsigned f.exponentWidth)
  let mantissa := (floatAsUint.and (allOnes f.mantissaWidth)).cast (.unsigned f.mantissaWidth)
  let zero := (IntValue.const 0).cast To
  if !toIsSigned To && decide (sign.value = 1) then (false, zero)
  else if exponent.value = (allOnes f.exponentWidth).value then (false, zero)
  else if exponent.value = 0 then (true, zero)
  else
    let unbiasedExponent := (exponent.sub (.const f.bias)).cast (.signed f.exponentWidth)
    let fullMantissa := ((mantissa.cast (.unsigned (f.mantissaWidth + 1 : Nat))).or
      ((IntValue.const 1).shiftLeft f.mantissaWidth)).cast (.unsigned (f.mantissaWidth + 1 : Nat))
    let result := integerPart f To fullMantissa unbiasedExponent
    (validExponent To unbiasedExponent mantissa sign,
      if sign.value = 1 then result.neg.cast To else result)

/-! ## The fields -/

section Fields

variable (x : FloatPackedFormat f)

theorem holds_pattern : IntValue.Holds ⟨patternType f, x.pattern⟩ x.pattern :=
  IntValue.holds_natCast (by omega) x.pattern_lt

theorem holds_allOnes {w : Nat} (hw : 0 < w) : (allOnes w).Holds (2 ^ w - 1 : Nat) := by
  have hpow := Nat.two_pow_pos w
  have hvalue : convert (.unsigned w) (Int.lnot (convert (.unsigned w) 0)) = (2 ^ w - 1 : Nat) := by
    apply convert_eq_of_modEq (.unsigned _) (IntValue.inRange_natCast hw (by omega))
    have hzero : convert (.unsigned w) 0 = 0 := Int.zero_emod _
    rw [hzero]
    show (-1 : Int) ≡ _ [ZMOD 2 ^ w]
    rw [Int.modEq_iff_dvd]
    push_cast [Nat.one_le_two_pow]
    exact ⟨1, by ring⟩
  exact ⟨.unsigned _, IntValue.inRange_natCast hw (by omega), hvalue⟩

theorem land_ones (n w : Nat) : Int.land n (2 ^ w - 1 : Nat) = ((n % 2 ^ w : Nat) : Int) := by
  rw [← Nat.and_two_pow_sub_one_eq_mod]
  rfl

theorem pattern_div_mantissa : x.pattern / 2 ^ f.mantissaWidth =
    x.sign.toNat * 2 ^ f.exponentWidth + x.exponent.toNat := by
  rw [pattern, Nat.mul_comm, Nat.mul_add_div (Nat.two_pow_pos _), Nat.div_eq_of_lt x.mantissa.isLt,
    Nat.add_zero]

theorem holds_sign : (((⟨patternType f, x.pattern⟩ : IntValue).shiftRight
    (f.mantissaWidth + f.exponentWidth)).cast (.unsigned 1)).Holds x.sign.toNat := by
  have hshift := (holds_pattern x).shiftRight
    (f.mantissaWidth + f.exponentWidth)
  have hdiv : x.pattern / 2 ^ (f.mantissaWidth + f.exponentWidth) = x.sign.toNat := by
    rw [Nat.pow_add, ← Nat.div_div_eq_div_mul, pattern_div_mantissa, Nat.mul_comm,
      Nat.mul_add_div (Nat.two_pow_pos _), Nat.div_eq_of_lt x.exponent.isLt, Nat.add_zero]
  rw [show ((x.pattern : Int) / 2 ^ (f.mantissaWidth + f.exponentWidth)) = x.sign.toNat by
    exact_mod_cast congrArg Nat.cast hdiv] at hshift
  exact hshift.cast (.unsigned _) (IntValue.inRange_natCast Nat.one_pos x.sign.isLt)

theorem holds_exponent : (((⟨patternType f, x.pattern⟩ : IntValue).shiftRight
    f.mantissaWidth).and (allOnes f.exponentWidth)).cast (.unsigned f.exponentWidth) |>.Holds
      x.exponent.toNat := by
  have hand := ((holds_pattern x).shiftRight f.mantissaWidth).and
    (holds_allOnes (exponentWidth_pos f))
  have hcast : ((x.pattern : Int) / 2 ^ f.mantissaWidth) =
      ((x.sign.toNat * 2 ^ f.exponentWidth + x.exponent.toNat : Nat) : Int) := by
    rw [← pattern_div_mantissa]
    push_cast
    rfl
  rw [hcast, land_ones, Nat.mul_add_mod_of_lt x.exponent.isLt] at hand
  exact hand.cast (.unsigned _) (IntValue.inRange_natCast (exponentWidth_pos f) x.exponent.isLt)

theorem holds_mantissa : ((⟨patternType f, x.pattern⟩ : IntValue).and
    (allOnes f.mantissaWidth)).cast (.unsigned f.mantissaWidth) |>.Holds x.mantissa.toNat := by
  have hand := (holds_pattern x).and (holds_allOnes f.mantissaWidth_pos)
  rw [land_ones, pattern, Nat.mul_add_mod_of_lt x.mantissa.isLt] at hand
  exact hand.cast (.unsigned _) (IntValue.inRange_natCast f.mantissaWidth_pos x.mantissa.isLt)

theorem holds_significand {mantissa : IntValue} (hm : mantissa.Holds x.mantissa.toNat) :
    (((mantissa.cast (.unsigned (f.mantissaWidth + 1 : Nat))).or
      ((IntValue.const 1).shiftLeft f.mantissaWidth)).cast
        (.unsigned (f.mantissaWidth + 1 : Nat))).Holds x.significand := by
  have hlt := x.mantissa.isLt
  have hwide := hm.cast (.unsigned _) (IntValue.inRange_natCast (Nat.succ_pos f.mantissaWidth)
    (Nat.lt_trans hlt (Nat.pow_lt_pow_right (by decide) (Nat.lt_succ_self _))))
  have hor := hwide.or ((IntValue.holds_const 1).shiftLeft f.mantissaWidth)
  have hvalue : Int.lor x.mantissa.toNat (1 * 2 ^ f.mantissaWidth) = x.significand := by
    have hlor := lor_shift (a := 1) hlt
    have hcomm : Int.lor x.mantissa.toNat (1 * 2 ^ f.mantissaWidth) =
        Int.lor ((1 : Nat) * 2 ^ f.mantissaWidth) x.mantissa.toNat := by
      have hnat : (1 * 2 ^ f.mantissaWidth : Int) = ((2 ^ f.mantissaWidth : Nat) : Int) := by
        rw [one_mul]
        push_cast
        rfl
      rw [Nat.cast_one, hnat]
      exact congrArg Int.ofNat (Nat.lor_comm _ _)
    rw [hcomm, hlor, Nat.one_mul]
    rfl
  rw [hvalue] at hor
  exact hor.cast (.unsigned _) (IntValue.inRange_natCast (Nat.succ_pos _) x.significand_lt)

end Fields

/-! ## The integer of a significand -/

/-- The significand, shifted to an exponent, without its fraction. -/
def wholePart (f : Format) (S : Nat) (d : Int) : Nat :=
  if d > f.mantissaWidth then S * 2 ^ (d - f.mantissaWidth).toNat
  else S / 2 ^ (f.mantissaWidth - d).toNat

/-- A number below one has none. -/
theorem wholePart_of_neg {S : Nat} (hS : S < 2 ^ (f.mantissaWidth + 1)) {d : Int} (hd : d < 0) :
    wholePart f S d = 0 := by
  rw [wholePart, if_neg (by omega)]
  apply Nat.div_eq_of_lt
  exact Nat.lt_of_lt_of_le hS (Nat.pow_le_pow_right (by decide) (by omega))

/-- The exponent is the logarithm. -/
theorem wholePart_bounds {S : Nat} (hlow : 2 ^ f.mantissaWidth ≤ S)
    (hhigh : S < 2 ^ (f.mantissaWidth + 1)) (d : Nat) :
    2 ^ d ≤ wholePart f S d ∧ wholePart f S d < 2 ^ (d + 1) := by
  rw [wholePart]
  split
  next h =>
    obtain ⟨j, rfl⟩ := Nat.exists_eq_add_of_le (show f.mantissaWidth ≤ d by omega)
    rw [show (((f.mantissaWidth + j : Nat) : Int) - f.mantissaWidth).toNat = j by omega]
    constructor
    · rw [Nat.pow_add]
      exact Nat.mul_le_mul_right _ hlow
    · rw [Nat.add_right_comm, Nat.pow_add]
      exact Nat.mul_lt_mul_of_pos_right hhigh (Nat.two_pow_pos j)
  next h =>
    obtain ⟨j, hj⟩ := Nat.exists_eq_add_of_le (show d ≤ f.mantissaWidth by omega)
    rw [show ((f.mantissaWidth : Int) - d).toNat = j by omega]
    rw [Nat.le_div_iff_mul_le (Nat.two_pow_pos j), Nat.div_lt_iff_lt_mul (Nat.two_pow_pos j),
      ← Nat.pow_add, ← Nat.pow_add, ← hj, show d + 1 + j = f.mantissaWidth + 1 by omega]
    exact ⟨hlow, hhigh⟩

/-- A power of two is its own integer. -/
theorem wholePart_two_pow (d : Nat) : wholePart f (2 ^ f.mantissaWidth) d = 2 ^ d := by
  rw [wholePart]
  split
  next h =>
    rw [← Nat.pow_add]
    congr 1
    omega
  next h => exact Nat.pow_div (by omega) (by decide) |>.trans (congrArg _ (by omega))

/-- The integer of a normal number. -/
theorem floor_magnitude {x : FloatPackedFormat f} (h : 0 < x.exponent.toNat) (denorm : Denorm) :
    ⌊x.magnitude denorm⌋ = wholePart f x.significand (x.exponent.toNat - f.bias) := by
  rw [wholePart]
  split
  next hlarge =>
    obtain ⟨j, hj⟩ := Nat.exists_eq_add_of_le
      (show f.bias + f.mantissaWidth ≤ x.exponent.toNat by omega)
    have hexp : (x.exponent.toNat - f.bias - f.mantissaWidth : ℤ) = j := by omega
    rw [magnitude_of_pos h, hexp, Int.toNat_natCast, zpow_natCast]
    have hcast : (x.significand : ℚ) * 2 ^ j = ((x.significand * 2 ^ j : Nat) : ℚ) := by
      push_cast
      rfl
    rw [hcast, Int.floor_natCast]
  next hsmall =>
    obtain ⟨k, hk⟩ := Nat.exists_eq_add_of_le
      (show x.exponent.toNat ≤ f.mantissaWidth + f.bias by omega)
    rw [magnitude_eq_div h hk.symm, RoundingFunction.floor_div_two_pow,
      show (f.mantissaWidth - (x.exponent.toNat - f.bias) : ℤ).toNat = k by omega]

/-! ## What the function computes -/

section Result

variable {To : Ty} {x : FloatPackedFormat f} {S : Nat} {u : Int}

/-- The integer part, in the type. -/
def storedPart (f : Format) (To : Ty) (S : Nat) (u : Int) : Int :=
  if f.mantissaWidth < u ∧ convert To (wholePart f S u) < 0 then
    -convert To (wholePart f S u) - 1
  else convert To (wholePart f S u)

/-- The result of a normal number. -/
def signedPart (f : Format) (To : Ty) (negative : Bool) (S : Nat) (u : Int) : Int :=
  if negative then convert To (-storedPart f To S u) else storedPart f To S u

theorem toIsSigned_eq (ht : IsIntType To) (hw : 0 < widthOf To) : toIsSigned To = tIsSigned To := by
  cases ht with
  | unsigned w =>
      have hnonneg : 0 ≤ convert (.unsigned w) (Int.lnot (convert (.unsigned w) 0)) :=
        Int.emod_nonneg _ (two_pow_pos _).ne'
      exact decide_eq_false (not_lt.mpr hnonneg)
  | signed w =>
      have hpos : 0 < w := hw
      have hzero : convert (.signed w) 0 = 0 := Int.zero_bmod
      have hones : convert (.signed w) (-1) = -1 :=
        convert_of_inRange (.signed w) ⟨hpos, by have := two_pow_pos (w - 1).toNat; omega,
          by have := two_pow_pos (w - 1).toNat; omega⟩
      show decide (convert (.signed w) (Int.lnot (convert (.signed w) 0)) < 0) = true
      rw [hzero]
      show decide (convert (.signed w) (-1) < 0) = true
      rw [hones]
      decide

theorem integerPart_value (ht : IsIntType To) (hw : 0 < widthOf To) {full unbiased : IntValue}
    (hfull : full.Holds S) (hu : unbiased.Holds u)
    (htype : unbiased.type = .signed f.exponentWidth) :
    (integerPart f To full unbiased).value = storedPart f To S u ∧
      (integerPart f To full unbiased).type = To := by
  rw [integerPart, storedPart, hu.value_eq]
  by_cases h : u > f.mantissaWidth
  · rw [if_pos h]
    have hshift := hu.sub (IntValue.holds_const f.mantissaWidth)
    have hwidth : widthOf (unbiased.sub (.const f.mantissaWidth)).type < 20 := by
      show widthOf (tSub unbiased.type (IntValue.const f.mantissaWidth).type) < 20
      rw [htype]
      have hlt := f.fractionBit_lt
      have hM := IntValue.const_isIntType f.mantissaWidth
      have hB := IntValue.const_isIntType f.bias
      generalize (IntValue.const f.mantissaWidth).type = a at hlt hM ⊢
      generalize (IntValue.const f.bias).type = b at hlt hB
      cases hM <;> cases hB <;>
        · simp only [tSub, tAdd, widthOf] at hlt ⊢
          omega
    have hshifted := hfull.shiftLeftBy hshift (by omega) hwidth
    have hwhole : (S : Int) * 2 ^ (u - f.mantissaWidth).toNat = wholePart f S u := by
      rw [wholePart, if_pos h]
      push_cast
      rfl
    rw [hwhole] at hshifted
    have hcast : ((full.shiftLeftBy (unbiased.sub (.const f.mantissaWidth))).result.cast To).value =
        convert To (wholePart f S u) := by
      show convert To _ = _
      rw [hshifted.value_eq]
    dsimp only
    rw [hcast]
    by_cases hneg : convert To (wholePart f S u : Int) < 0
    · have hin := inRange_convert ht hw (wholePart f S u : Int)
      rw [if_pos hneg, if_pos ⟨h, hneg⟩]
      refine ⟨?_, rfl⟩
      show convert To (convert (tInvert To) (Int.lnot
        ((full.shiftLeftBy (unbiased.sub (.const f.mantissaWidth))).result.cast To).value)) = _
      rw [hcast, lnot_eq, tInvert, if_pos ht.tIsInt]
      generalize convert To (wholePart f S u : Int) = v at hin hneg
      have hflip : InRange To (-v - 1) := by
        cases ht with
        | unsigned w => exact absurd hin.2.1 (not_le.mpr hneg)
        | signed w =>
            obtain ⟨hpos, hlow, hhigh⟩ := hin
            exact ⟨hpos, by omega, by omega⟩
      rw [convert_of_inRange ht hflip, convert_of_inRange ht hflip]
    · rw [if_neg hneg, if_neg fun h' => hneg h'.2]
      exact ⟨hcast, rfl⟩
  · rw [if_neg h, if_neg fun h' => h h'.1]
    have hshift := (IntValue.holds_const f.mantissaWidth).sub hu
    have hshifted := hfull.shiftRightBy hshift (by omega)
    have hwhole : (S : Int) / 2 ^ (f.mantissaWidth - u).toNat = wholePart f S u := by
      rw [wholePart, if_neg h]
      push_cast
      rfl
    rw [hwhole] at hshifted
    refine ⟨?_, rfl⟩
    show convert To _ = _
    rw [hshifted.value_eq]

/-- A sign bit. -/
theorem sign_eq_one_iff (x : FloatPackedFormat f) : (x.sign.toNat : Int) = 1 ↔ x.sign ≠ 0 := by
  have hlt : x.sign.toNat < 2 := x.sign.isLt
  have hzero : x.sign = 0 ↔ x.sign.toNat = 0 := by
    rw [← BitVec.toNat_inj]
    exact Iff.rfl
  rw [ne_eq, hzero]
  omega

/-- `float_to_int` on a pattern: the case it takes, and what it returns there. -/
theorem floatToInt_cases (f : Format) (ht : IsIntType To) (hw : 0 < widthOf To)
    (x : FloatPackedFormat f) :
    (((tIsSigned To = false ∧ x.sign ≠ 0) ∨ ¬(getSpecialCases .on x).finite = true) ∧
        (floatToInt f To ⟨patternType f, x.pattern⟩).1 = false) ∨
      ((tIsSigned To = true ∨ x.sign = 0) ∧ (getSpecialCases .on x).finite = true ∧
        x.exponent = 0 ∧ (floatToInt f To ⟨patternType f, x.pattern⟩).1 = true ∧
          (floatToInt f To ⟨patternType f, x.pattern⟩).2.value = 0) ∨
      ((tIsSigned To = true ∨ x.sign = 0) ∧ (getSpecialCases .on x).finite = true ∧
        x.exponent ≠ 0 ∧ ∃ u, u = convert (.signed f.exponentWidth) (x.exponent.toNat - f.bias) ∧
          ((floatToInt f To ⟨patternType f, x.pattern⟩).1 = true ↔
            u < widthOf To - 1 ∨ (u = widthOf To - 1 ∧
              (tIsSigned To = true → x.mantissa.toNat = 0 ∧ x.sign ≠ 0))) ∧
          (floatToInt f To ⟨patternType f, x.pattern⟩).2.value =
            signedPart f To (x.sign != 0) x.significand u) := by
  have hsign := holds_sign x
  have hexponent := holds_exponent x
  have hmantissa := holds_mantissa x
  have hfull := holds_significand x hmantissa
  have hones := holds_allOnes (exponentWidth_pos f)
  have hpowE := Nat.two_pow_pos f.exponentWidth
  have hlt := x.exponent.isLt
  have hzero : convert To 0 = 0 := by
    cases ht with
    | unsigned w => exact Int.zero_emod _
    | signed w => exact Int.zero_bmod
  have hsigned := toIsSigned_eq ht hw
  rw [floatToInt]
  dsimp only
  rw [hsign.value_eq, hexponent.value_eq, hones.value_eq, hsigned]
  by_cases hunsigned : tIsSigned To = false ∧ x.sign ≠ 0
  · left
    rw [if_pos (by
      rw [hunsigned.1, decide_eq_true ((sign_eq_one_iff x).mpr hunsigned.2)]
      rfl)]
    exact ⟨.inl hunsigned, rfl⟩
  have hpositive : tIsSigned To = true ∨ x.sign = 0 := by
    by_contra hnot
    rw [not_or, Bool.not_eq_true] at hnot
    exact hunsigned hnot
  rw [if_neg (by
    rcases hpositive with h | h
    · rw [h, Bool.not_true, Bool.false_and]
      decide
    · rw [decide_eq_false fun h1 => (sign_eq_one_iff x).mp h1 h, Bool.and_false]
      decide)]
  by_cases hinf : x.exponent.toNat = 2 ^ f.exponentWidth - 1
  · left
    rw [if_pos (by exact_mod_cast hinf), finite_iff]
    exact ⟨.inr (by omega), rfl⟩
  right
  have hfinite : (getSpecialCases .on x).finite = true := by
    rw [finite_iff]
    omega
  rw [if_neg (by exact_mod_cast hinf)]
  by_cases h0 : x.exponent = 0
  · left
    rw [if_pos (by exact_mod_cast exponent_eq_zero_iff.mp h0)]
    exact ⟨hpositive, hfinite, h0, rfl, hzero⟩
  right
  rw [if_neg (by exact_mod_cast fun h => h0 (exponent_eq_zero_iff.mpr h))]
  refine ⟨hpositive, hfinite, h0, _, rfl, ?_⟩
  have hu : ((((⟨patternType f, x.pattern⟩ : IntValue).shiftRight f.mantissaWidth).and
      (allOnes f.exponentWidth)).cast (.unsigned f.exponentWidth) |>.sub (.const f.bias)).cast
        (.signed f.exponentWidth) |>.Holds
          (convert (.signed f.exponentWidth) (x.exponent.toNat - f.bias)) := by
    have hsub := hexponent.sub (IntValue.holds_const f.bias)
    have hE : 0 < widthOf (.signed f.exponentWidth) := Int.natCast_pos.mpr (exponentWidth_pos f)
    exact ⟨.signed _, inRange_convert (.signed _) hE _,
      congrArg (convert (.signed f.exponentWidth)) hsub.value_eq⟩
  obtain ⟨hvalue, htype⟩ := integerPart_value ht hw hfull hu rfl
  generalize convert (.signed (f.exponentWidth : Int)) (x.exponent.toNat - f.bias) = u at *
  constructor
  · rw [validExponent, hu.value_eq, hsigned, hmantissa.value_eq, hsign.value_eq]
    have hm : ((x.mantissa.toNat : Int) = 0) ↔ x.mantissa.toNat = 0 := by norm_cast
    by_cases hge : u ≥ widthOf To
    · rw [if_pos hge]
      exact ⟨nofun, fun h => by omega⟩
    rw [if_neg hge, ← sign_eq_one_iff x]
    by_cases hless : u < widthOf To - 1
    · rw [decide_eq_true hless]
      exact ⟨fun _ => .inl hless, fun _ => rfl⟩
    have heq : u = widthOf To - 1 := by omega
    rw [decide_eq_false hless, decide_eq_true heq]
    cases tIsSigned To with
    | false => exact ⟨fun _ => .inr ⟨heq, nofun⟩, fun _ => rfl⟩
    | true =>
        by_cases hleast : x.mantissa.toNat = 0 ∧ (x.sign.toNat : Int) = 1
        · rw [decide_eq_true (hm.mpr hleast.1), decide_eq_true hleast.2]
          exact ⟨fun _ => .inr ⟨heq, fun _ => hleast⟩, fun _ => rfl⟩
        · have hnot : (decide ((x.mantissa.toNat : Int) = 0) &&
              decide ((x.sign.toNat : Int) = 1)) = false := by
            rw [← Bool.not_eq_true, Bool.and_eq_true, decide_eq_true_eq, decide_eq_true_eq, hm]
            exact hleast
          rw [hnot]
          exact ⟨nofun, fun h => absurd ((h.resolve_left hless).2 rfl) hleast⟩
  · rw [signedPart]
    by_cases hs : x.sign = 0
    · rw [if_neg fun h => (sign_eq_one_iff x).mp h hs, hs]
      exact hvalue
    · rw [if_pos ((sign_eq_one_iff x).mpr hs), bne_iff_ne.mpr hs, if_pos rfl]
      show convert To (convert (tNeg (IntValue.type _)) (-IntValue.value _)) = _
      rw [htype, hvalue]
      apply convert_congr ht
      apply (convert_modEq (isIntType_tNeg ht) _).of_dvd
      have hle : (widthOf To).toNat ≤ (widthOf (tNeg To)).toNat := by
        cases ht with
        | unsigned w => simp only [tNeg, widthOf]; omega
        | signed w => simp only [tNeg, widthOf]; omega
      exact pow_dvd_pow 2 hle

theorem storedPart_of_inRange (ht : IsIntType To) (h : InRange To (wholePart f S u)) :
    storedPart f To S u = wholePart f S u := by
  rw [storedPart, convert_of_inRange ht h, if_neg fun h' => absurd h'.2 (by omega)]

/-- A value of the type, with its sign. -/
theorem signedPart_of_inRange (ht : IsIntType To) (negative : Bool)
    (h : InRange To (wholePart f S u))
    (hneg : negative = true → InRange To (-(wholePart f S u : Int))) :
    signedPart f To negative S u =
      if negative then -(wholePart f S u : Int) else wholePart f S u := by
  rw [signedPart, storedPart_of_inRange ht h]
  cases negative with
  | true => exact convert_of_inRange ht (hneg rfl)
  | false => rfl

/-- The least value of a signed type, which is its own negation there. -/
theorem signedPart_least {w : Int} (hw : 0 < w) :
    signedPart f (.signed w) true (2 ^ f.mantissaWidth) (w - 1) =
      if f.mantissaWidth < w - 1 then -2 ^ (w - 1).toNat + 1 else -2 ^ (w - 1).toNat := by
  have hpow := two_pow_pos (w - 1).toNat
  have hdouble : (2 : Int) ^ w.toNat = 2 * 2 ^ (w - 1).toNat := by
    rw [show w.toNat = (w - 1).toNat + 1 by omega]
    ring
  have hleast : InRange (.signed w) (-2 ^ (w - 1).toNat) := ⟨hw, le_rfl, by omega⟩
  have hconvert : convert (.signed w) (2 ^ (w - 1).toNat) = -2 ^ (w - 1).toNat := by
    apply convert_eq_of_modEq (.signed w) hleast
    show _ ≡ _ [ZMOD 2 ^ w.toNat]
    rw [hdouble, Int.modEq_iff_dvd]
    exact ⟨-1, by ring⟩
  have hwhole : (wholePart f (2 ^ f.mantissaWidth) (w - 1) : Int) = 2 ^ (w - 1).toNat := by
    have htwo := wholePart_two_pow (f := f) (w - 1).toNat
    rw [Int.toNat_of_nonneg (by omega)] at htwo
    rw [htwo]
    push_cast
    rfl
  rw [signedPart, storedPart, hwhole, hconvert, if_pos rfl]
  by_cases h : (f.mantissaWidth : Int) < w - 1
  · rw [if_pos ⟨h, by omega⟩, if_pos h]
    rw [show -(-(-2 ^ (w - 1).toNat) - 1 : Int) = -2 ^ (w - 1).toNat + 1 by ring]
    exact convert_of_inRange (.signed w) ⟨hw, by omega, by omega⟩
  · rw [if_neg fun h' => h h'.1, if_neg h, neg_neg, hconvert]

end Result

/-! ## The exact integer -/

open RoundingFunction

variable {t : IntegerType}

/-- The number is finite, not negative for an unsigned type, and its integer a value of the type. -/
def IsConvertible (t : IntegerType) (x : FloatPackedFormat f) : Prop :=
  (getSpecialCases .on x).finite = true ∧ (tIsSigned t.type = true ∨ 0 ≤ x.value .on) ∧
    InRange t.type (trunc.exact (x.value .on))

/-- The result of `float_to_int` is the truncated number, if there is one; else it is not valid. -/
def FloatToIntExact (f : Format) (t : IntegerType) (x : FloatPackedFormat f) : Prop :=
  (IsConvertible t x → (floatToInt f t.type ⟨patternType f, x.pattern⟩).1 = true ∧
    (floatToInt f t.type ⟨patternType f, x.pattern⟩).2.value = trunc.exact (x.value .on)) ∧
  (¬IsConvertible t x → (floatToInt f t.type ⟨patternType f, x.pattern⟩).1 = false)

/-- A negative zero is not converted to an unsigned type, the unbiased exponent has a signed type of
    the width of the exponent, and the least value of a signed type has no fraction and is not
    shifted left. -/
def IntegerFits (f : Format) (t : IntegerType) (x : FloatPackedFormat f) : Prop :=
  (tIsSigned t.type = false → x.sign ≠ 0 → ¬(x.exponent = 0 ∧ x.mantissa = 0)) ∧
    (tIsSigned t.type = true ∨ x.sign = 0 → x.exponent ≠ 0 →
      InRange (.signed f.exponentWidth) (x.exponent.toNat - f.bias) ∧
        (tIsSigned t.type = true →
          trunc.exact (x.value .on) = -2 ^ (widthOf t.type - 1).toNat →
            x.mantissa.toNat = 0 ∧ widthOf t.type - 1 ≤ f.mantissaWidth))

theorem trunc_value {x : FloatPackedFormat f} (h : 0 < x.exponent.toNat) :
    trunc.exact (x.value .on) =
      if x.sign = 0 then (wholePart f x.significand (x.exponent.toNat - f.bias) : Int)
      else -(wholePart f x.significand (x.exponent.toNat - f.bias) : Int) := by
  have hq := magnitude_nonneg .on x
  rw [value]
  by_cases hs : x.sign = 0
  · rw [if_pos hs, if_pos hs, exact_of_nonneg _ hq]
    exact floor_magnitude h .on
  · rw [if_neg hs, if_neg hs, exact_neg _ hq]
    exact congrArg Neg.neg (floor_magnitude h .on)

theorem magnitude_eq_zero_iff {x : FloatPackedFormat f} :
    x.magnitude .on = 0 ↔ x.exponent = 0 ∧ x.mantissa = 0 := by
  have hzero : x.mantissa = 0 ↔ x.mantissa.toNat = 0 := by
    rw [← BitVec.toNat_inj]
    exact Iff.rfl
  by_cases he : x.exponent = 0
  · rw [magnitude_of_exponent_eq_zero he, if_pos rfl, hzero, div_eq_zero_iff, Nat.cast_eq_zero]
    have hpow : (2 : ℚ) ^ (f.mantissaWidth + f.bias - 1) ≠ 0 := by positivity
    exact ⟨fun h => ⟨he, h.resolve_right hpow⟩, fun h => .inl h.2⟩
  · rw [magnitude, if_neg he]
    have hS := two_pow_le_significand x
    have hpow := Nat.two_pow_pos f.mantissaWidth
    have hpos : (0 : ℚ) < x.significand := by exact_mod_cast (by omega : 0 < x.significand)
    exact ⟨fun h => absurd h (by positivity), fun h => absurd h.1 he⟩

/-- A denormal is cut off to zero. -/
theorem trunc_of_exponent_eq_zero {x : FloatPackedFormat f} (he : x.exponent = 0) :
    trunc.exact (x.value .on) = 0 := by
  have hq := magnitude_nonneg .on x
  have hfloor : ⌊x.magnitude .on⌋ = 0 := by
    rw [Int.floor_eq_zero_iff]
    refine ⟨hq, ?_⟩
    have hpos := f.bias_pos
    have hlt : x.mantissa.toNat < 2 ^ (f.mantissaWidth + f.bias - 1) :=
      Nat.lt_of_lt_of_le x.mantissa.isLt (Nat.pow_le_pow_right (by decide) (by omega))
    rw [magnitude_of_exponent_eq_zero he, if_pos rfl, div_lt_one (by positivity)]
    exact_mod_cast hlt
  rw [value]
  split
  · rw [exact_of_nonneg _ hq]
    exact hfloor
  · rw [exact_neg _ hq]
    show -⌊x.magnitude .on⌋ = 0
    rw [hfloor, neg_zero]

/-- The least value of a type that is signed. -/
theorem signedPart_least_of_signed (hsigned : tIsSigned t.type = true) :
    signedPart f t.type true (2 ^ f.mantissaWidth) (widthOf t.type - 1) =
      if f.mantissaWidth < widthOf t.type - 1 then -2 ^ (widthOf t.type - 1).toNat + 1
      else -2 ^ (widthOf t.type - 1).toNat := by
  have hpos := t.width_pos
  have hint := t.isIntType
  generalize t.type = ty at hsigned hpos hint ⊢
  cases hint with
  | unsigned w => exact absurd (show false = true from hsigned) Bool.false_ne_true
  | signed w => exact signedPart_least hpos

/-- What a type of some width holds. -/
theorem inRange_iff (t : IntegerType) (v : Int) : InRange t.type v ↔
    if tIsSigned t.type then -2 ^ (widthOf t.type - 1).toNat ≤ v ∧ v < 2 ^ (widthOf t.type - 1).toNat
    else 0 ≤ v ∧ v < 2 ^ (widthOf t.type).toNat := by
  have hpos := t.width_pos
  have hint := t.isIntType
  generalize t.type = ty at hpos hint ⊢
  cases hint with
  | unsigned w => exact ⟨fun h => h.2, fun h => ⟨hpos, h⟩⟩
  | signed w => exact ⟨fun h => h.2, fun h => ⟨hpos, h⟩⟩

theorem wholePart_lt_iff {S : Nat} (hlow : 2 ^ f.mantissaWidth ≤ S)
    (hhigh : S < 2 ^ (f.mantissaWidth + 1)) (u : Int) (k : Nat) :
    wholePart f S u < 2 ^ k ↔ u < k := by
  have hpow := Nat.two_pow_pos k
  rcases lt_or_ge u 0 with hneg | hnonneg
  · rw [wholePart_of_neg hhigh hneg]
    exact ⟨fun _ => by omega, fun _ => hpow⟩
  · obtain ⟨d, rfl⟩ := Int.eq_ofNat_of_zero_le hnonneg
    obtain ⟨hle, hlt⟩ := wholePart_bounds hlow hhigh d
    constructor
    · intro h
      have hpowlt := Nat.lt_of_le_of_lt hle h
      rw [Nat.pow_lt_pow_iff_right (by decide)] at hpowlt
      exact_mod_cast hpowlt
    · intro h
      exact Nat.lt_of_lt_of_le hlt (Nat.pow_le_pow_right (by decide) (by exact_mod_cast h))

section Normal

variable {x : FloatPackedFormat f} {u : Int}

/-- The part of a number that is smaller than every value of the highest bit. -/
theorem signedPart_of_lt (hσ : tIsSigned t.type = true ∨ x.sign = 0)
    (hu : wholePart f x.significand u < 2 ^ (if tIsSigned t.type then widthOf t.type - 1
      else widthOf t.type).toNat) :
    signedPart f t.type (x.sign != 0) x.significand u =
      if x.sign = 0 then (wholePart f x.significand u : Int)
      else -(wholePart f x.significand u : Int) := by
  have hu' : (wholePart f x.significand u : Int) < 2 ^ (if tIsSigned t.type then widthOf t.type - 1
      else widthOf t.type).toNat := by exact_mod_cast hu
  have hpow := two_pow_pos (widthOf t.type - 1).toNat
  rw [signedPart_of_inRange t.isIntType]
  · by_cases hs : x.sign = 0
    · rw [if_pos hs, hs]
      rfl
    · rw [if_neg hs, bne_iff_ne.mpr hs]
      rfl
  · rw [inRange_iff]
    split at hu'
    next h =>
      rw [if_pos h]
      exact ⟨by omega, hu'⟩
    next h =>
      rw [if_neg h]
      exact ⟨Int.natCast_nonneg _, hu'⟩
  · intro hs
    have hsigned := hσ.resolve_right (bne_iff_ne.mp hs)
    rw [if_pos hsigned] at hu'
    rw [inRange_iff, if_pos hsigned]
    exact ⟨by omega, by omega⟩

/-- The exact integer is a value of the type. -/
theorem inRange_trunc_iff (hpos : 0 < x.exponent.toNat)
    (hσ : tIsSigned t.type = true ∨ x.sign = 0) :
    InRange t.type (trunc.exact (x.value .on)) ↔
      wholePart f x.significand (x.exponent.toNat - f.bias) <
          2 ^ (if tIsSigned t.type then widthOf t.type - 1 else widthOf t.type).toNat ∨
        (tIsSigned t.type = true ∧ x.sign ≠ 0 ∧
          wholePart f x.significand (x.exponent.toNat - f.bias) =
            2 ^ (widthOf t.type - 1).toNat) := by
  rw [trunc_value hpos, inRange_iff]
  generalize wholePart f x.significand (x.exponent.toNat - f.bias) = n
  have hpow := two_pow_pos (widthOf t.type - 1).toNat
  have hcast : ∀ k : Nat, (n : Int) < 2 ^ k ↔ n < 2 ^ k := fun k => by norm_cast
  have hcast' : (n : Int) = 2 ^ (widthOf t.type - 1).toNat ↔ n = 2 ^ (widthOf t.type - 1).toNat := by
    norm_cast
  by_cases hsigned : tIsSigned t.type = true
  · rw [if_pos hsigned, if_pos hsigned, ← hcast, ← hcast']
    by_cases hs : x.sign = 0
    · rw [if_pos hs]
      exact ⟨fun h => .inl h.2, fun h => ⟨by omega, h.resolve_right fun h' => h'.2.1 hs⟩⟩
    · rw [if_neg hs]
      constructor
      · rintro ⟨hle, -⟩
        rcases Int.lt_or_eq_of_le (show (n : Int) ≤ 2 ^ (widthOf t.type - 1).toNat by omega)
          with h | h
        · exact .inl h
        · exact .inr ⟨hsigned, hs, h⟩
      · rintro (h | ⟨-, -, h⟩)
        · exact ⟨by omega, by omega⟩
        · exact ⟨by omega, by omega⟩
  · rw [if_neg hsigned, if_neg hsigned, if_pos (hσ.resolve_left hsigned), ← hcast]
    exact ⟨fun h => .inl h.2, fun h => ⟨Int.natCast_nonneg n, h.resolve_right fun h' =>
      hsigned h'.1⟩⟩

/-- The unbiased exponent fits: only the least value of a signed type is special. -/
theorem exact_iff_of_fits (hpos : 0 < x.exponent.toNat)
    (hσ : tIsSigned t.type = true ∨ x.sign = 0) {valid : Prop} {result : Int}
    (hvalid : valid ↔ (x.exponent.toNat - f.bias : Int) < widthOf t.type - 1 ∨
      ((x.exponent.toNat - f.bias : Int) = widthOf t.type - 1 ∧
        (tIsSigned t.type = true → x.mantissa.toNat = 0 ∧ x.sign ≠ 0)))
    (hresult : result = signedPart f t.type (x.sign != 0) x.significand
      (x.exponent.toNat - f.bias)) :
    ((InRange t.type (trunc.exact (x.value .on)) →
        valid ∧ result = trunc.exact (x.value .on)) ∧
      (¬InRange t.type (trunc.exact (x.value .on)) → ¬valid)) ↔
      (tIsSigned t.type = true →
        trunc.exact (x.value .on) = -2 ^ (widthOf t.type - 1).toNat →
          x.mantissa.toNat = 0 ∧ widthOf t.type - 1 ≤ f.mantissaWidth) := by
  have hW := t.width_pos
  have hlow := two_pow_le_significand x
  have hhigh := significand_lt x
  rw [inRange_trunc_iff hpos hσ, hvalid, hresult, trunc_value hpos]
  have hiff := wholePart_lt_iff hlow hhigh (x.exponent.toNat - f.bias)
  have hsmall := signedPart_of_lt (u := x.exponent.toNat - f.bias) hσ
  have hpow := two_pow_pos (widthOf t.type - 1).toNat
  by_cases hlt : wholePart f x.significand (x.exponent.toNat - f.bias) <
      2 ^ (if tIsSigned t.type then widthOf t.type - 1 else widthOf t.type).toNat
  · -- A value below the highest bit, with either sign
    have hu := (hiff _).mp hlt
    have hvalid' : (x.exponent.toNat - f.bias : Int) < widthOf t.type - 1 ∨
        ((x.exponent.toNat - f.bias : Int) = widthOf t.type - 1 ∧
          (tIsSigned t.type = true → x.mantissa.toNat = 0 ∧ x.sign ≠ 0)) := by
      by_cases hsigned : tIsSigned t.type = true
      · rw [if_pos hsigned] at hu
        exact .inl (by omega)
      · rw [if_neg hsigned] at hu
        by_cases heq : (x.exponent.toNat - f.bias : Int) = widthOf t.type - 1
        · exact .inr ⟨heq, fun h => absurd h hsigned⟩
        · exact .inl (by omega)
    refine ⟨fun _ hsigned heq => ?_, fun _ => ⟨fun _ => ⟨hvalid', hsmall hlt⟩,
      fun h => absurd (.inl hlt) h⟩⟩
    rw [if_pos hsigned] at hlt
    have hlt' : (wholePart f x.significand (x.exponent.toNat - f.bias) : Int) <
        2 ^ (widthOf t.type - 1).toNat := by exact_mod_cast hlt
    split at heq <;> omega
  have hge : ¬(x.exponent.toNat - f.bias : Int) <
      (if tIsSigned t.type then widthOf t.type - 1 else widthOf t.type).toNat :=
    fun h => hlt ((hiff _).mpr h)
  by_cases hsigned : tIsSigned t.type = true
  · rw [if_pos hsigned] at hge hlt
    have hnotless : ¬(x.exponent.toNat - f.bias : Int) < widthOf t.type - 1 := by omega
    by_cases hleast : x.sign ≠ 0 ∧ wholePart f x.significand (x.exponent.toNat - f.bias) =
        2 ^ (widthOf t.type - 1).toNat
    · -- The least value
      obtain ⟨hs, hwhole⟩ := hleast
      have heq : (x.exponent.toNat - f.bias : Int) = widthOf t.type - 1 := by
        have hlt' := (hiff ((widthOf t.type - 1).toNat + 1)).mp (by
          rw [hwhole]
          exact Nat.pow_lt_pow_right (by decide) (Nat.lt_succ_self _))
        omega
      have hcast : ((2 ^ (widthOf t.type - 1).toNat : Nat) : Int) =
          2 ^ (widthOf t.type - 1).toNat := by norm_cast
      rw [if_neg hs, hwhole, hcast]
      have hrange : 2 ^ (widthOf t.type - 1).toNat <
          2 ^ (if tIsSigned t.type then widthOf t.type - 1 else widthOf t.type).toNat ∨
            tIsSigned t.type = true ∧ x.sign ≠ 0 ∧
              2 ^ (widthOf t.type - 1).toNat = 2 ^ (widthOf t.type - 1).toNat :=
        .inr ⟨hsigned, hs, rfl⟩
      have hresult' : x.mantissa.toNat = 0 →
          (signedPart f t.type (x.sign != 0) x.significand (x.exponent.toNat - f.bias) =
            -2 ^ (widthOf t.type - 1).toNat ↔ widthOf t.type - 1 ≤ f.mantissaWidth) := by
        intro hm
        have hS : x.significand = 2 ^ f.mantissaWidth := by rw [FloatPackedFormat.significand, hm, Nat.add_zero]
        rw [heq, bne_iff_ne.mpr hs, hS, signedPart_least_of_signed hsigned]
        split
        next h => exact ⟨fun h' => by omega, fun h' => by omega⟩
        next h => exact ⟨fun _ => by omega, fun _ => rfl⟩
      constructor
      · intro h _ _
        obtain ⟨hv, hr⟩ := h.1 hrange
        have hm := ((hv.resolve_left hnotless).2 hsigned).1
        exact ⟨hm, (hresult' hm).mp hr⟩
      · intro h
        obtain ⟨hm, hle⟩ := h hsigned rfl
        exact ⟨fun _ => ⟨.inr ⟨heq, fun _ => ⟨hm, hs⟩⟩, (hresult' hm).mpr hle⟩,
          fun h' => absurd hrange h'⟩
    · -- Out of the range
      rw [if_pos hsigned]
      have hnot : ¬(wholePart f x.significand (x.exponent.toNat - f.bias) <
          2 ^ (widthOf t.type - 1).toNat ∨ tIsSigned t.type = true ∧ x.sign ≠ 0 ∧
            wholePart f x.significand (x.exponent.toNat - f.bias) =
              2 ^ (widthOf t.type - 1).toNat) := by
        rintro (h | h)
        · exact hlt h
        · exact hleast h.2
      refine ⟨fun _ _ heq => ?_, fun _ => ⟨fun h => absurd h hnot, fun _ hv => ?_⟩⟩
      · by_cases hs : x.sign = 0
        · rw [if_pos hs] at heq
          omega
        · rw [if_neg hs, neg_inj] at heq
          exact absurd ⟨hs, by exact_mod_cast heq⟩ hleast
      · obtain ⟨heq, hm⟩ := hv.resolve_left hnotless
        obtain ⟨hm, hs⟩ := hm hsigned
        have hS : x.significand = 2 ^ f.mantissaWidth := by rw [FloatPackedFormat.significand, hm, Nat.add_zero]
        have htwo := wholePart_two_pow (f := f) (widthOf t.type - 1).toNat
        rw [Int.toNat_of_nonneg (by omega), ← heq, ← hS] at htwo
        rw [heq] at htwo hleast
        exact hleast ⟨hs, htwo⟩
  · rw [if_neg hsigned] at hge ⊢
    have hnot : ¬(wholePart f x.significand (x.exponent.toNat - f.bias) <
        2 ^ (widthOf t.type).toNat ∨ tIsSigned t.type = true ∧ x.sign ≠ 0 ∧
          wholePart f x.significand (x.exponent.toNat - f.bias) =
            2 ^ (widthOf t.type - 1).toNat) := by
      rintro (h | h)
      · exact hge ((hiff _).mp h)
      · exact hsigned h.1
    refine ⟨fun _ h => absurd h hsigned, fun _ => ⟨fun h => absurd h hnot, fun _ hv => ?_⟩⟩
    omega

/-- An unbiased exponent that is cut off gives another number. -/
theorem not_exact_of_wrapped (hpos : 0 < x.exponent.toNat)
    (hfinite : x.exponent.toNat + 1 < 2 ^ f.exponentWidth)
    (hσ : tIsSigned t.type = true ∨ x.sign = 0)
    (hfits : ¬InRange (.signed f.exponentWidth) (x.exponent.toNat - f.bias)) {valid : Prop}
    {result : Int} (hu : u = convert (.signed f.exponentWidth) (x.exponent.toNat - f.bias))
    (hvalid : valid ↔ u < widthOf t.type - 1 ∨ (u = widthOf t.type - 1 ∧
        (tIsSigned t.type = true → x.mantissa.toNat = 0 ∧ x.sign ≠ 0)))
    (hresult : result = signedPart f t.type (x.sign != 0) x.significand u) :
    ¬((InRange t.type (trunc.exact (x.value .on)) →
        valid ∧ result = trunc.exact (x.value .on)) ∧
      (¬InRange t.type (trunc.exact (x.value .on)) → ¬valid)) := by
  have hW := t.width_pos
  have hlow := two_pow_le_significand x
  have hhigh := significand_lt x
  have hE := exponentWidth_pos f
  have hbias := f.bias_lt
  have hbias0 := f.bias_pos
  have hdouble : (2 : Int) ^ f.exponentWidth = 2 * 2 ^ ((f.exponentWidth : Int) - 1).toNat := by
    rw [show ((f.exponentWidth : Int) - 1).toNat = f.exponentWidth - 1 by omega,
      ← pow_succ', show f.exponentWidth - 1 + 1 = f.exponentWidth by omega]
  have hcast : ((2 ^ f.exponentWidth : Nat) : Int) = 2 ^ f.exponentWidth := by norm_cast
  have hwrap : ∀ v, InRange (.signed f.exponentWidth) v →
      (x.exponent.toNat - f.bias : Int) ≡ v [ZMOD 2 ^ f.exponentWidth] → u = v := by
    intro v hv hmod
    rw [hu]
    exact convert_eq_of_modEq (.signed _) hv hmod
  have hhalf := two_pow_pos ((f.exponentWidth : Int) - 1).toNat
  intro ⟨hin, hout⟩
  rcases lt_or_ge (x.exponent.toNat - f.bias : Int) 0 with hneg | hnonneg
  · -- Far below one: the number is zero, the result is not
    have hu' : u = x.exponent.toNat - f.bias + 2 ^ f.exponentWidth := by
      apply hwrap
      · refine ⟨Int.natCast_pos.mpr hE, ?_, ?_⟩
        · omega
        · by_contra hge
          exact hfits ⟨Int.natCast_pos.mpr hE, by omega, by omega⟩
      · rw [Int.modEq_iff_dvd]
        exact ⟨1, by ring⟩
    have hu1 : 1 ≤ u := by omega
    have hzero : trunc.exact (x.value .on) = 0 := by
      rw [trunc_value hpos, wholePart_of_neg hhigh hneg]
      simp
    have hrange : InRange t.type 0 := by
      have hpow := two_pow_pos (widthOf t.type - 1).toNat
      have hpow' := two_pow_pos (widthOf t.type).toNat
      rw [inRange_iff]
      split
      · exact ⟨by omega, hpow⟩
      · exact ⟨le_rfl, hpow'⟩
    rw [hzero] at hin
    obtain ⟨hv, hr⟩ := hin hrange
    rw [hresult] at hr
    have hwhole : 0 < wholePart f x.significand u := by
      obtain ⟨d, hd⟩ := Int.eq_ofNat_of_zero_le (show 0 ≤ u by omega)
      rw [hd]
      exact Nat.lt_of_lt_of_le (Nat.two_pow_pos d) (wholePart_bounds hlow hhigh d).1
    have hiff := wholePart_lt_iff hlow hhigh u
    have hsmall : u < (if tIsSigned t.type then widthOf t.type - 1 else widthOf t.type).toNat →
        False := by
      intro hlt
      rw [signedPart_of_lt hσ ((hiff _).mpr hlt)] at hr
      split at hr <;> omega
    rcases hvalid.mp hv with hless | ⟨heq, hleast⟩
    · apply hsmall
      split <;> omega
    · by_cases hsigned : tIsSigned t.type = true
      · obtain ⟨hm, hs⟩ := hleast hsigned
        have hS : x.significand = 2 ^ f.mantissaWidth := by rw [FloatPackedFormat.significand, hm, Nat.add_zero]
        rw [heq, bne_iff_ne.mpr hs, hS, signedPart_least_of_signed hsigned] at hr
        have hpow : (2 : Int) ≤ 2 ^ (widthOf t.type - 1).toNat := by
          have hsucc : (widthOf t.type - 1).toNat = (widthOf t.type - 1).toNat - 1 + 1 := by omega
          have hpos' := two_pow_pos ((widthOf t.type - 1).toNat - 1)
          rw [hsucc, pow_succ]
          omega
        split at hr <;> omega
      · apply hsmall
        rw [if_neg hsigned]
        omega
  · -- Far too large: the result is zero
    have hu' : u = x.exponent.toNat - f.bias - 2 ^ f.exponentWidth := by
      apply hwrap
      · refine ⟨Int.natCast_pos.mpr hE, ?_, ?_⟩
        · by_contra hlt
          exact hfits ⟨Int.natCast_pos.mpr hE, by omega, by omega⟩
        · omega
      · rw [Int.modEq_iff_dvd]
        exact ⟨-1, by ring⟩
    have hneg : u < 0 := by omega
    have hv : valid := hvalid.mpr (.inl (by omega))
    have hrange : InRange t.type (trunc.exact (x.value .on)) := by
      by_contra h
      exact hout h hv
    have hr := (hin hrange).2
    have hzero := wholePart_of_neg hhigh hneg
    have hwhole : 0 < wholePart f x.significand (x.exponent.toNat - f.bias) := by
      obtain ⟨d, hd⟩ := Int.eq_ofNat_of_zero_le hnonneg
      rw [hd]
      exact Nat.lt_of_lt_of_le (Nat.two_pow_pos d) (wholePart_bounds hlow hhigh d).1
    rw [hresult, signedPart_of_lt hσ (by rw [hzero]; exact Nat.two_pow_pos _), hzero,
      trunc_value hpos] at hr
    split at hr <;> omega

end Normal

/-- `float_to_int` is exact on a pattern that is not finite, and on a finite one if and only if the
    integer fits. -/
theorem floatToIntExact_iff (f : Format) (t : IntegerType) (x : FloatPackedFormat f) :
    FloatToIntExact f t x ↔ ((getSpecialCases .on x).finite = true → IntegerFits f t x) := by
  have hq := magnitude_nonneg .on x
  rw [FloatToIntExact]
  rcases floatToInt_cases f t.isIntType t.width_pos x with
    ⟨hcase, hfalse⟩ | ⟨hσ, hfinite, he, htrue, hzero⟩ | ⟨hσ, hfinite, he, u, hu, hvalid, hresult⟩
  · rw [hfalse]
    have hreduce : ((IsConvertible t x → false = true ∧
        (floatToInt f t.type ⟨patternType f, x.pattern⟩).2.value = trunc.exact (x.value .on)) ∧
        (¬IsConvertible t x → false = false)) ↔ ¬IsConvertible t x :=
      ⟨fun h hc => absurd (h.1 hc).1 Bool.false_ne_true, fun h => ⟨fun hc => absurd hc h, fun _ => rfl⟩⟩
    rw [hreduce]
    by_cases hfinite : (getSpecialCases .on x).finite = true
    · obtain ⟨hunsigned, hs⟩ := hcase.resolve_right (not_not.mpr hfinite)
      have hσ : ¬(tIsSigned t.type = true ∨ x.sign = 0) := by
        rintro (h | h)
        · rw [hunsigned] at h
          exact nomatch h
        · exact hs h
      have hvalue : x.value .on = -x.magnitude .on := if_neg hs
      constructor
      · intro hnot _
        refine ⟨fun _ _ hzero => hnot ⟨hfinite, .inr ?_, ?_⟩, fun h => absurd h hσ⟩
        · rw [hvalue, magnitude_eq_zero_iff.mpr hzero, neg_zero]
        · rw [trunc_of_exponent_eq_zero hzero.1, inRange_iff, hunsigned]
          exact ⟨le_rfl, two_pow_pos _⟩
      · intro hfits hconv
        apply (hfits hfinite).1 hunsigned hs
        rw [← magnitude_eq_zero_iff]
        have hnonneg := hconv.2.1.resolve_left (by rw [hunsigned]; exact Bool.false_ne_true)
        rw [hvalue] at hnonneg
        linarith
    · exact ⟨fun _ h => absurd h hfinite, fun _ h => hfinite h.1⟩
  · have htrunc := trunc_of_exponent_eq_zero he
    have hconv : IsConvertible t x := by
      refine ⟨hfinite, hσ.imp_right fun hs => ?_, ?_⟩
      · rw [value, if_pos hs]
        exact hq
      · have hpow := two_pow_pos (widthOf t.type - 1).toNat
        rw [htrunc, inRange_iff]
        split
        · exact ⟨by omega, hpow⟩
        · exact ⟨le_rfl, two_pow_pos _⟩
    refine ⟨fun _ _ => ⟨fun hunsigned hs _ => ?_, fun _ h => absurd he h⟩,
      fun _ => ⟨fun _ => ⟨htrue, hzero.trans htrunc.symm⟩, fun h => absurd hconv h⟩⟩
    rcases hσ with h | h
    · rw [hunsigned] at h
      exact nomatch h
    · exact hs h
  · have hpos : 0 < x.exponent.toNat := by
      rw [ne_eq, exponent_eq_zero_iff] at he
      omega
    have hconv : IsConvertible t x ↔ InRange t.type (trunc.exact (x.value .on)) := by
      refine ⟨fun h => h.2.2, fun h => ⟨hfinite, hσ.imp_right fun hs => ?_, h⟩⟩
      rw [value, if_pos hs]
      exact hq
    have hfirst : tIsSigned t.type = false → x.sign ≠ 0 → ¬(x.exponent = 0 ∧ x.mantissa = 0) :=
      fun _ _ h => he h.1
    rw [hconv, ← Bool.not_eq_true (floatToInt f t.type _).1]
    have hfits : ((getSpecialCases .on x).finite = true → IntegerFits f t x) ↔
        InRange (.signed f.exponentWidth) (x.exponent.toNat - f.bias) ∧
          (tIsSigned t.type = true →
            trunc.exact (x.value .on) = -2 ^ (widthOf t.type - 1).toNat →
              x.mantissa.toNat = 0 ∧ widthOf t.type - 1 ≤ f.mantissaWidth) :=
      ⟨fun h => (h hfinite).2 hσ he, fun h _ => ⟨hfirst, fun _ _ => h⟩⟩
    rw [hfits]
    by_cases hfit : InRange (.signed f.exponentWidth) (x.exponent.toNat - f.bias : Int)
    · rw [convert_of_inRange (.signed _) hfit] at hu
      subst hu
      rw [exact_iff_of_fits hpos hσ hvalid hresult]
      exact ⟨fun h => ⟨hfit, h⟩, fun h => h.2⟩
    · refine ⟨fun h => absurd h ?_, fun h => absurd h.1 hfit⟩
      exact not_exact_of_wrapped hpos ((finite_iff x).mp hfinite) hσ hfit hu hvalid hresult

/-- The conversion of an integer is exact if and only if its exponent fits, and the conversion to an
    integer if and only if the number is not finite or its integer fits. -/
theorem conversions_exact_iff (f : Format) :
    (∀ (t : IndexedType) (n : Integer t), IntToFloatExact f n ↔ ExponentFits f n.value.natAbs) ∧
      (∀ (t : IntegerType) (x : FloatPackedFormat f), FloatToIntExact f t x ↔
        ((getSpecialCases .on x).finite = true → IntegerFits f t x)) ∧
      ∀ n, IsNearestEven (f.mantissaWidth + 1) n (nearestEven (f.mantissaWidth + 1) n) := by
  refine ⟨fun t n => intToFloatExact_iff f n, fun t x => floatToIntExact_iff f t x, fun n => ?_⟩
  have hpos := f.mantissaWidth_pos
  exact isNearestEven_nearestEven (by omega) n

/-- `int8`. -/
def int8 : IntegerType := ⟨.signed 8, .signed 8, by decide⟩

/-- Minus 128 and a half, whose integer is the least value of `int8`: the result is not valid. -/
theorem floatToInt_not_exact :
    IsConvertible int8 (⟨32768, 134, 1⟩ : FloatPackedFormat float32) ∧
      (floatToInt float32 int8.type ⟨patternType float32,
        (⟨32768, 134, 1⟩ : FloatPackedFormat float32).pattern⟩).1 = false ∧
      ¬FloatToIntExact float32 int8 ⟨32768, 134, 1⟩ := by
  have hconv : IsConvertible int8 (⟨32768, 134, 1⟩ : FloatPackedFormat float32) := by
    refine ⟨by decide +kernel, .inl rfl, ?_⟩
    rw [trunc_value (by decide), if_neg (by decide)]
    have hwhole : wholePart float32 (⟨32768, 134, 1⟩ : FloatPackedFormat float32).significand
        ((⟨32768, 134, 1⟩ : FloatPackedFormat float32).exponent.toNat - float32.bias) = 128 := by
      decide +kernel
    rw [hwhole]
    exact ⟨by decide, by decide, by decide⟩
  have hfalse : (floatToInt float32 int8.type ⟨patternType float32,
      (⟨32768, 134, 1⟩ : FloatPackedFormat float32).pattern⟩).1 = false := by decide +kernel
  refine ⟨hconv, hfalse, fun h => ?_⟩
  have htrue := (h.1 hconv).1
  rw [hfalse] at htrue
  exact Bool.false_ne_true htrue

end Kanagawa.Library
