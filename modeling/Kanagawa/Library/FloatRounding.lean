/-
  Kanagawa.Library.FloatRounding

  Rounding to integers (`numeric/float/internal.k`).

  The fraction bits of the significand are cut off, the rest is rounded and shifted back; a carry
  out of the significand goes to the exponent.  `round_internal` looks at the highest fraction bit,
  also of a number that has none, and of zeros.
-/
import Kanagawa.Library.FloatFormat

namespace Kanagawa.Library

open Frontend

variable {f : Format}

/-! ## The functions -/

namespace FloatPackedFormat

/-- `fractionBit`: how many bits of the significand are below the unit. -/
def fractionBit (binary : FloatPackedFormat f) : IntValue :=
  let exponent := IntValue.sub ⟨.unsigned f.exponentWidth, binary.exponent.toNat⟩ (.const f.bias)
  IntValue.sub (.const f.mantissaWidth) exponent

/-- `mantissa`, with the leading one. -/
def fullMantissa (binary : FloatPackedFormat f) : IntValue :=
  IntValue.or ⟨.unsigned f.mantissaWidth, binary.mantissa.toNat⟩
    ((IntValue.const 1).shiftLeft f.mantissaWidth)

/-- The integer, as the pattern of the result. -/
def storeIntegral (binary : FloatPackedFormat f) (integral fractionBit : IntValue) :
    Shifted (FloatPackedFormat f) := do
  if integral.value = 0 then
    return { binary with exponent := 0, mantissa := 0 }
  else if integral.value = 1 then
    return { binary with exponent := BitVec.ofInt _ f.bias, mantissa := 0 }
  else
    let shifted ← integral.shiftLeftBy fractionBit
    let carry := (shifted.shiftRight (f.mantissaWidth + 1)).andLiteral 1
    let exponent := IntValue.add ⟨.unsigned f.exponentWidth, binary.exponent.toNat⟩ carry
    let mantissa ← integral.shiftLeftBy fractionBit
    return { binary with
      exponent := BitVec.ofInt _ exponent.value
      mantissa := BitVec.ofInt _ mantissa.value }

/-- The common body of `ceil_internal` and `floor_internal`, for the sign that is rounded up in
    magnitude. -/
def roundToward (away : BitVec 1 → Bool) (denorm : Denorm) (binary : FloatPackedFormat f) :
    Shifted (FloatPackedFormat f) := do
  let flags := getSpecialCases denorm binary
  let fractionBit := binary.fractionBit
  if flags.finite && !flags.zero && decide (fractionBit.value ≥ 0) then
    let mantissa := binary.fullMantissa
    let bit ← (IntValue.const 1).shiftLeftBy fractionBit
    let fraction := mantissa.and (bit.sub (.const 1))
    let shifted ← mantissa.shiftRightBy fractionBit
    let up := away binary.sign && decide (fraction.value ≠ 0)
    let integral := shifted.add (IntValue.mk (.unsigned 1) (if up then 1 else 0))
    binary.storeIntegral integral fractionBit
  else return binary

/-- `ceil_internal`. -/
def ceilInternal (denorm : Denorm) (x : FloatPackedFormat f) : Shifted (FloatPackedFormat f) :=
  x.roundToward (fun sign => sign == 0) denorm

/-- `floor_internal`. -/
def floorInternal (denorm : Denorm) (x : FloatPackedFormat f) : Shifted (FloatPackedFormat f) :=
  x.roundToward (fun sign => sign != 0) denorm

/-- `round_internal`. -/
def roundInternal (denorm : Denorm) (binary : FloatPackedFormat f) :
    Shifted (FloatPackedFormat f) := do
  let flags := getSpecialCases denorm binary
  let fractionBit := binary.fractionBit
  if flags.finite && decide (fractionBit.value ≥ 0) then
    let mantissa := binary.fullMantissa
    -- `fraction` is computed and not used
    let bit ← (IntValue.const 1).shiftLeftBy fractionBit
    let _fraction := mantissa.and (bit.sub (.const 1))
    let integral ← mantissa.shiftRightBy fractionBit
    let half ← mantissa.shiftRightBy (fractionBit.sub (.const 1))
    let roundedIntegral := integral.add (half.andLiteral 1)
    binary.storeIntegral roundedIntegral fractionBit
  else return binary

/-- `trunc_internal`. -/
def truncInternal (denorm : Denorm) (x : FloatPackedFormat f) : Shifted (FloatPackedFormat f) := do
  let result ← floorInternal denorm { x with sign := 0 }
  return { result with sign := x.sign }

end FloatPackedFormat

open FloatPackedFormat

/-- The four functions. -/
inductive RoundingFunction where
  | ceil | floor | round | trunc
  deriving DecidableEq

namespace RoundingFunction

def apply : RoundingFunction → Denorm → FloatPackedFormat f → Shifted (FloatPackedFormat f)
  | ceil => ceilInternal
  | floor => floorInternal
  | round => roundInternal
  | trunc => truncInternal

/-- The integer a function is for; `round` takes halves away from zero. -/
def exact : RoundingFunction → ℚ → ℤ
  | ceil, v => ⌈v⌉
  | floor, v => ⌊v⌋
  | round, v => if v < 0 then -⌊-v + 1 / 2⌋ else ⌊v + 1 / 2⌋
  | trunc, v => if v < 0 then ⌈v⌉ else ⌊v⌋

/-- The function is exact on a pattern: it shifts by no negative amount, returns a finite pattern
    of the integer and the same sign for a finite one, and the others unchanged. -/
def RoundsExactly (op : RoundingFunction) (denorm : Denorm) (x : FloatPackedFormat f) : Prop :=
  (∀ n ∈ (op.apply denorm x).amounts, 0 ≤ n) ∧
    if (getSpecialCases denorm x).finite then
      (getSpecialCases denorm (op.apply denorm x).result).finite = true ∧
        (op.apply denorm x).result.sign = x.sign ∧
        (op.apply denorm x).result.value denorm = op.exact (x.value denorm)
    else (op.apply denorm x).result = x

end RoundingFunction

/-! ## What the functions compute -/

namespace FloatPackedFormat

variable {denorm : Denorm} {x : FloatPackedFormat f} {integral fractionBit : IntValue} {N k : Nat}

/-- A field of a pattern. -/
theorem holds_field {w : Nat} (hpos : 0 < w) (b : BitVec w) :
    IntValue.Holds ⟨.unsigned w, b.toNat⟩ b.toNat :=
  IntValue.holds_natCast hpos b.isLt

theorem holds_fractionBit (x : FloatPackedFormat f) :
    x.fractionBit.Holds (f.mantissaWidth - (x.exponent.toNat - f.bias)) :=
  (IntValue.holds_const _).sub
    ((holds_field (exponentWidth_pos f) x.exponent).sub (IntValue.holds_const _))

theorem fractionBit_width (x : FloatPackedFormat f) : widthOf x.fractionBit.type < 20 :=
  f.fractionBit_lt

theorem holds_fullMantissa (x : FloatPackedFormat f) : x.fullMantissa.Holds x.significand := by
  have hor := (holds_field f.mantissaWidth_pos x.mantissa).or
    ((IntValue.holds_const 1).shiftLeft f.mantissaWidth)
  have hvalue : Int.lor x.mantissa.toNat (1 * 2 ^ f.mantissaWidth) = x.significand := by
    have hnat : Int.lor x.mantissa.toNat (1 * 2 ^ f.mantissaWidth) =
        ((x.mantissa.toNat ||| 2 ^ f.mantissaWidth * 1 : Nat) : Int) := by
      rw [one_mul, mul_one]
      exact_mod_cast rfl
    rw [hnat, Nat.lor_comm, ← Nat.two_pow_add_eq_or_of_lt x.mantissa.isLt, mul_one]
    rfl
  exact hvalue ▸ hor

/-- The pattern of an integer. -/
def stored (x : FloatPackedFormat f) (N k : Nat) : FloatPackedFormat f :=
  if N = 0 then { x with exponent := 0, mantissa := 0 }
  else if N = 1 then { x with exponent := BitVec.ofNat _ f.bias, mantissa := 0 }
  else { x with
    exponent := BitVec.ofNat _ (x.exponent.toNat + N * 2 ^ k / 2 ^ (f.mantissaWidth + 1) % 2)
    mantissa := BitVec.ofNat _ (N * 2 ^ k) }

theorem storeIntegral_result (x : FloatPackedFormat f) (hN : integral.Holds N)
    (hk : fractionBit.Holds k) (hwidth : widthOf fractionBit.type < 20) :
    (x.storeIntegral integral fractionBit).result = x.stored N k := by
  have hshifted := hN.shiftLeftBy hk (Int.natCast_nonneg k) hwidth
  have hcarry := ((hshifted.shiftRight (f.mantissaWidth + 1)).andLiteral 1)
  have hexponent := (holds_field (exponentWidth_pos f) x.exponent).add hcarry
  have hland : Int.land ((N : Int) * 2 ^ (k : Int).toNat / 2 ^ (f.mantissaWidth + 1)) 1 =
      ((N * 2 ^ k / 2 ^ (f.mantissaWidth + 1) % 2 : Nat) : Int) := by
    rw [Int.toNat_natCast, ← Nat.and_one_is_mod]
    exact_mod_cast rfl
  rw [storeIntegral, stored, hN.value_eq]
  by_cases h0 : N = 0
  · rw [if_pos (by exact_mod_cast h0), if_pos h0]
    rfl
  rw [if_neg (by exact_mod_cast h0), if_neg h0]
  by_cases h1 : N = 1
  · rw [if_pos (by exact_mod_cast h1), if_pos h1]
    rfl
  rw [if_neg (by exact_mod_cast h1), if_neg h1]
  simp only [Shifted.result_bind, Shifted.result_pure]
  rw [hexponent.value_eq, hshifted.value_eq, hland]
  have hmantissa : (N : Int) * 2 ^ (k : Int).toNat = ((N * 2 ^ k : Nat) : Int) := by
    push_cast
    rw [Int.toNat_natCast]
  rw [hmantissa, BitVec.ofInt_natCast, ← Nat.cast_add, BitVec.ofInt_natCast]

theorem storeIntegral_amounts (x : FloatPackedFormat f) :
    ∀ n ∈ (x.storeIntegral integral fractionBit).amounts, n = fractionBit.value := by
  intro n hn
  rw [storeIntegral] at hn
  split at hn
  · exact nomatch hn
  split at hn
  · exact nomatch hn
  · simp only [Shifted.amounts_bind, Shifted.amounts_pure, List.append_nil, List.mem_append] at hn
    rcases hn with hn | hn
    · exact List.mem_singleton.mp hn
    · exact List.mem_singleton.mp hn

/-- The fraction of a significand. -/
theorem holds_fraction (x : FloatPackedFormat f) {bit : IntValue} (hbit : bit.Holds (2 ^ k)) :
    (x.fullMantissa.and (bit.sub (.const 1))).Holds (x.significand % 2 ^ k : Nat) := by
  have hand := (holds_fullMantissa x).and (hbit.sub (IntValue.holds_const 1))
  have hvalue : Int.land x.significand (2 ^ k - 1) = ((x.significand % 2 ^ k : Nat) : Int) := by
    have hones : (2 ^ k - 1 : Int) = ((2 ^ k - 1 : Nat) : Int) := by
      push_cast [Nat.one_le_two_pow]
      ring
    rw [hones, ← Nat.and_two_pow_sub_one_eq_mod]
    rfl
  exact hvalue ▸ hand

/-- `ceil_internal` and `floor_internal` on a number with `k` fraction bits. -/
theorem roundToward_result (away : BitVec 1 → Bool)
    (hfinite : (getSpecialCases denorm x).finite = true)
    (hzero : (getSpecialCases denorm x).zero = false) (hk : x.fractionBit.Holds k) :
    (x.roundToward away denorm).result = x.stored (x.significand / 2 ^ k +
      if away x.sign && decide (x.significand % 2 ^ k ≠ 0) then 1 else 0) k := by
  have hbit := (IntValue.holds_const 1).shiftLeftBy hk (Int.natCast_nonneg k) (fractionBit_width x)
  rw [one_mul, Int.toNat_natCast] at hbit
  have hfraction := holds_fraction x hbit
  have hshifted := (holds_fullMantissa x).shiftRightBy hk (Int.natCast_nonneg k)
  have hnonneg : decide (x.fractionBit.value ≥ 0) = true := by
    rw [hk.value_eq]
    exact decide_eq_true (Int.natCast_nonneg k)
  rw [roundToward, hfinite, hzero, hnonneg]
  simp only [Bool.not_false, Bool.and_true, if_true, Shifted.result_bind]
  rw [hfraction.value_eq]
  apply storeIntegral_result x _ hk (fractionBit_width x)
  generalize hup : (away x.sign && decide (((x.significand % 2 ^ k : Nat) : Int) ≠ 0)) = up
  have hup' : (away x.sign && decide (x.significand % 2 ^ k ≠ 0)) = up := by
    rw [← hup]
    norm_cast
  have hone : IntValue.Holds ⟨.unsigned 1, if up then 1 else 0⟩ (if up then 1 else 0) := by
    refine ⟨.unsigned 1, ?_, rfl⟩
    cases up with
    | true => exact ⟨by decide, by decide, by decide⟩
    | false => exact ⟨by decide, by decide, by decide⟩
  rw [hup']
  have hsum := hshifted.add hone
  rw [Int.toNat_natCast] at hsum
  cases up with
  | true => exact_mod_cast hsum
  | false => exact_mod_cast hsum

/-- The others are returned as they are. -/
theorem roundToward_unchanged (away : BitVec 1 → Bool)
    (h : (getSpecialCases denorm x).finite = false ∨ (getSpecialCases denorm x).zero = true ∨
      x.fractionBit.value < 0) : x.roundToward away denorm = ⟨x, []⟩ := by
  have hcond : ((getSpecialCases denorm x).finite && !(getSpecialCases denorm x).zero &&
      decide (x.fractionBit.value ≥ 0)) = false := by
    rcases h with h | h | h
    · rw [h, Bool.false_and, Bool.false_and]
    · rw [h, Bool.not_true, Bool.and_false, Bool.false_and]
    · rw [decide_eq_false (by omega), Bool.and_false]
  rw [roundToward]
  dsimp only
  rw [hcond]
  rfl

theorem roundToward_amounts (away : BitVec 1 → Bool) (denorm : Denorm) (x : FloatPackedFormat f) :
    ∀ n ∈ (x.roundToward away denorm).amounts, 0 ≤ n := by
  by_cases h : 0 ≤ x.fractionBit.value
  · intro n hn
    have hall : n = x.fractionBit.value := by
      rw [roundToward] at hn
      dsimp only at hn
      split at hn
      · simp only [Shifted.amounts_bind, List.mem_append] at hn
        rcases hn with hn | hn | hn
        · exact List.mem_singleton.mp hn
        · exact List.mem_singleton.mp hn
        · exact storeIntegral_amounts x n hn
      · exact nomatch hn
    exact hall ▸ h
  · rw [roundToward_unchanged away (.inr (.inr (not_le.mp h)))]
    exact fun n hn => nomatch hn

/-- `round_internal` on a number with some fraction bits. -/
theorem roundInternal_result (hfinite : (getSpecialCases denorm x).finite = true)
    (hk : x.fractionBit.Holds (k + 1 : Nat)) :
    (roundInternal denorm x).result =
      x.stored (x.significand / 2 ^ (k + 1) + x.significand / 2 ^ k % 2) (k + 1) := by
  have hshifted := (holds_fullMantissa x).shiftRightBy hk (Int.natCast_nonneg _)
  have hless : (x.fractionBit.sub (.const 1)).Holds k := by
    have hsub := hk.sub (IntValue.holds_const 1)
    rwa [Nat.cast_add, Nat.cast_one, add_sub_cancel_right] at hsub
  have hhalf := ((holds_fullMantissa x).shiftRightBy hless (Int.natCast_nonneg k)).andLiteral 1
  have hland : Int.land ((x.significand : Int) / 2 ^ (k : Int).toNat) 1 =
      ((x.significand / 2 ^ k % 2 : Nat) : Int) := by
    rw [Int.toNat_natCast, ← Nat.and_one_is_mod]
    exact_mod_cast rfl
  have hnonneg : decide (x.fractionBit.value ≥ 0) = true := by
    rw [hk.value_eq]
    exact decide_eq_true (Int.natCast_nonneg _)
  rw [roundInternal, hfinite, hnonneg]
  simp only [Bool.and_true, if_true, Shifted.result_bind]
  apply storeIntegral_result x _ hk (fractionBit_width x)
  rw [hland] at hhalf
  have hsum := hshifted.add hhalf
  rw [Int.toNat_natCast] at hsum
  exact_mod_cast hsum

theorem roundInternal_unchanged
    (h : (getSpecialCases denorm x).finite = false ∨ x.fractionBit.value < 0) :
    roundInternal denorm x = ⟨x, []⟩ := by
  have hcond : ((getSpecialCases denorm x).finite && decide (x.fractionBit.value ≥ 0)) = false := by
    rcases h with h | h
    · rw [h, Bool.false_and]
    · rw [decide_eq_false (by omega), Bool.and_false]
  rw [roundInternal]
  dsimp only
  rw [hcond]
  rfl

/-- The number of a half bit is one less than that of the fraction bits. -/
theorem roundInternal_amounts_iff (hfinite : (getSpecialCases denorm x).finite = true) :
    (∀ n ∈ (roundInternal denorm x).amounts, 0 ≤ n) ↔ x.fractionBit.value ≠ 0 := by
  have hk := holds_fractionBit x
  have hless := hk.sub (IntValue.holds_const 1)
  by_cases h : 0 ≤ x.fractionBit.value
  · rw [roundInternal, hfinite, decide_eq_true h]
    simp only [Bool.and_true, if_true, Shifted.amounts_bind, List.mem_append]
    constructor
    · intro hall heq
      have hneg := hall _ (.inr (.inr (.inl (List.mem_singleton.mpr rfl))))
      rw [hless.value_eq] at hneg
      rw [hk.value_eq] at heq
      omega
    · intro hne n hn
      rcases hn with hn | hn | hn | hn
      · exact List.mem_singleton.mp hn ▸ h
      · exact List.mem_singleton.mp hn ▸ h
      · rw [List.mem_singleton.mp hn, hless.value_eq]
        rw [hk.value_eq] at h hne
        omega
      · exact storeIntegral_amounts x n hn ▸ h
  · rw [roundInternal_unchanged (.inr (not_le.mp h))]
    have hne : x.fractionBit.value ≠ 0 := by omega
    exact ⟨fun _ => hne, fun _ n hn => nomatch hn⟩

/-! ## What a stored integer denotes -/

theorem stored_sign (x : FloatPackedFormat f) (N k : Nat) : (x.stored N k).sign = x.sign := by
  rw [stored]
  split_ifs <;> rfl

/-- Zero and one. -/
theorem stored_small (x : FloatPackedFormat f) (denorm : Denorm) (hN : N ≤ 1) (k : Nat) :
    (getSpecialCases denorm (x.stored N k)).finite = true ∧
      (x.stored N k).magnitude denorm = N := by
  have hbias := f.bias_lt
  have hpos := f.bias_pos
  have hzero : (0 : BitVec f.mantissaWidth).toNat = 0 := rfl
  rcases Nat.le_one_iff_eq_zero_or_eq_one.mp hN with rfl | rfl
  · rw [finite_iff, stored, if_pos rfl]
    refine ⟨?_, ?_⟩
    · show 0 + 1 < 2 ^ f.exponentWidth
      omega
    · rw [magnitude_of_exponent_eq_zero rfl]
      show ((if denorm = .on then (0 : BitVec f.mantissaWidth).toNat else 0 : Nat) : ℚ) / _ = _
      rw [hzero, ite_self, Nat.cast_zero, zero_div]
  · have hexponent : (BitVec.ofNat f.exponentWidth f.bias).toNat = f.bias := by
      rw [BitVec.toNat_ofNat, Nat.mod_eq_of_lt (by omega)]
    rw [finite_iff, stored, if_neg Nat.one_ne_zero, if_pos rfl]
    refine ⟨?_, ?_⟩
    · show (BitVec.ofNat f.exponentWidth f.bias).toNat + 1 < _
      rw [hexponent]
      exact hbias
    · rw [magnitude_eq_div (k := f.mantissaWidth)]
      · show ((2 ^ f.mantissaWidth + (0 : BitVec f.mantissaWidth).toNat : Nat) : ℚ) / _ = _
        rw [hzero, Nat.add_zero, Nat.cast_pow, Nat.cast_ofNat, Nat.cast_one]
        exact div_self (by positivity)
      · show 0 < (BitVec.ofNat f.exponentWidth f.bias).toNat
        rw [hexponent]
        exact hpos
      · show (BitVec.ofNat f.exponentWidth f.bias).toNat + _ = _
        rw [hexponent, Nat.add_comm]

/-- An integer next to a normal number is stored exactly, up to the power of two that would need
    the exponent of the infinities. -/
theorem stored_exact_iff (x : FloatPackedFormat f) (denorm : Denorm)
    (he : 0 < x.exponent.toNat) (hfinite : x.exponent.toNat + 1 < 2 ^ f.exponentWidth)
    (hk : x.exponent.toNat + k = f.mantissaWidth + f.bias) (hlow : x.significand / 2 ^ k ≤ N)
    (hhigh : N ≤ x.significand / 2 ^ k + 1) :
    ((getSpecialCases denorm (x.stored N k)).finite = true ∧
      (x.stored N k).magnitude denorm = N) ↔ N < 2 ^ (2 ^ f.exponentWidth - 1 - f.bias) := by
  have hbias := f.bias_lt
  have hS := two_pow_le_significand x
  have hS' := significand_lt x
  by_cases hsmall : N ≤ 1
  · refine ⟨fun _ => ?_, fun _ => stored_small x denorm hsmall k⟩
    apply Nat.lt_of_le_of_lt hsmall
    exact Nat.one_lt_two_pow (by omega)
  -- Two and more are only next to numbers with bits above the fraction
  have hkM : k ≤ f.mantissaWidth := by
    by_contra hlt
    have hpow : 2 ^ (f.mantissaWidth + 1) ≤ 2 ^ k := Nat.pow_le_pow_right (by decide) (by omega)
    rw [Nat.div_eq_of_lt (Nat.lt_of_lt_of_le hS' hpow)] at hhigh
    omega
  obtain ⟨j, hj⟩ := Nat.exists_eq_add_of_le hkM
  have hpowk := Nat.two_pow_pos k
  have hM : 2 ^ f.mantissaWidth = 2 ^ j * 2 ^ k := by rw [hj, Nat.pow_add, Nat.mul_comm]
  have hM' : 2 ^ (f.mantissaWidth + 1) = 2 ^ (j + 1) * 2 ^ k := by
    rw [hj, Nat.add_assoc, Nat.pow_add, Nat.mul_comm]
  have hNlow : 2 ^ j ≤ N := by
    apply Nat.le_trans _ hlow
    rw [Nat.le_div_iff_mul_le hpowk, ← hM]
    exact hS
  have hNhigh : N ≤ 2 ^ (j + 1) := by
    have hlt : x.significand / 2 ^ k < 2 ^ (j + 1) := by
      rw [Nat.div_lt_iff_lt_mul hpowk, ← hM']
      exact hS'
    omega
  have hstored : x.stored N k = { x with
      exponent := BitVec.ofNat _ (x.exponent.toNat + N * 2 ^ k / 2 ^ (f.mantissaWidth + 1) % 2)
      mantissa := BitVec.ofNat _ (N * 2 ^ k) } := by
    rw [stored, if_neg (by omega), if_neg (by omega)]
  rw [hstored, finite_iff]
  rcases Nat.lt_or_eq_of_le hNhigh with hlt | heq
  · -- No carry
    have hN : N * 2 ^ k < 2 ^ (f.mantissaWidth + 1) := by
      rw [hM']
      exact Nat.mul_lt_mul_of_pos_right hlt hpowk
    have hN' : 2 ^ f.mantissaWidth ≤ N * 2 ^ k := by
      rw [hM]
      exact Nat.mul_le_mul_right _ hNlow
    have hexponent : (BitVec.ofNat f.exponentWidth
        (x.exponent.toNat + N * 2 ^ k / 2 ^ (f.mantissaWidth + 1) % 2)).toNat =
          x.exponent.toNat := by
      rw [Nat.div_eq_of_lt hN, Nat.zero_mod, Nat.add_zero, BitVec.toNat_ofNat,
        Nat.mod_eq_of_lt (by omega)]
    have hmantissa : 2 ^ f.mantissaWidth + (BitVec.ofNat f.mantissaWidth (N * 2 ^ k)).toNat =
        N * 2 ^ k := by
      rw [Nat.pow_succ] at hN
      rw [BitVec.toNat_ofNat, Nat.mod_eq_sub_mod hN', Nat.mod_eq_of_lt (by omega)]
      omega
    dsimp only
    rw [hexponent, magnitude_eq_div (k := k)]
    · have hvalue : ((N * 2 ^ k : Nat) : ℚ) / 2 ^ k = N := by
        rw [Nat.cast_mul, Nat.cast_pow, Nat.cast_ofNat]
        exact mul_div_cancel_right₀ _ (by positivity)
      have hbound : N < 2 ^ (2 ^ f.exponentWidth - 1 - f.bias) :=
        Nat.lt_of_lt_of_le hlt (Nat.pow_le_pow_right (by decide) (by omega))
      refine ⟨fun _ => hbound, fun _ => ⟨hfinite, ?_⟩⟩
      rw [significand, hmantissa]
      exact hvalue
    · show 0 < (BitVec.ofNat f.exponentWidth _).toNat
      rw [hexponent]
      exact he
    · show (BitVec.ofNat f.exponentWidth _).toNat + k = _
      rw [hexponent]
      exact hk
  · -- The next power of two
    have hN : N * 2 ^ k = 2 ^ (f.mantissaWidth + 1) := by rw [hM', heq]
    have hexponent : (BitVec.ofNat f.exponentWidth
        (x.exponent.toNat + N * 2 ^ k / 2 ^ (f.mantissaWidth + 1) % 2)).toNat =
          x.exponent.toNat + 1 := by
      rw [hN, Nat.div_self (Nat.two_pow_pos _), BitVec.toNat_ofNat, Nat.mod_eq_of_lt hfinite]
    have hmantissa : (BitVec.ofNat f.mantissaWidth (N * 2 ^ k)).toNat = 0 := by
      rw [hN, BitVec.toNat_ofNat, Nat.pow_succ, Nat.mul_mod_right]
    dsimp only
    rw [hexponent, magnitude_of_pos]
    · have hexp : ((x.exponent.toNat + 1 : Nat) - f.bias - f.mantissaWidth : ℤ) =
          (j + 1 : Nat) - (f.mantissaWidth : ℤ) := by omega
      have hvalue : ((2 ^ f.mantissaWidth : Nat) : ℚ) *
          2 ^ ((x.exponent.toNat + 1 : Nat) - f.bias - f.mantissaWidth : ℤ) = N := by
        rw [hexp, zpow_sub₀ two_ne_zero, zpow_natCast, zpow_natCast, heq, Nat.cast_pow,
          Nat.cast_pow, Nat.cast_ofNat]
        exact mul_div_cancel₀ _ (by positivity)
      have hiff : N < 2 ^ (2 ^ f.exponentWidth - 1 - f.bias) ↔
          x.exponent.toNat + 1 + 1 < 2 ^ f.exponentWidth := by
        rw [heq, Nat.pow_lt_pow_iff_right (by decide)]
        omega
      rw [hiff]
      refine ⟨fun h => h.1, fun h => ⟨h, ?_⟩⟩
      rw [significand, hmantissa, hexponent]
      exact hvalue
    · show 0 < (BitVec.ofNat f.exponentWidth _).toNat
      rw [hexponent]
      omega

end FloatPackedFormat

/-! ## The exact integers -/

namespace RoundingFunction

variable {denorm : Denorm} {x y : FloatPackedFormat f} {q : ℚ} {N k : Nat}

/-- The absolute value of the exact integer, for the absolute value of a number. -/
def exactMagnitude : RoundingFunction → Bool → ℚ → ℤ
  | ceil, negative, q => if negative then ⌊q⌋ else ⌈q⌉
  | floor, negative, q => if negative then ⌈q⌉ else ⌊q⌋
  | round, _, q => ⌊q + 1 / 2⌋
  | trunc, _, q => ⌊q⌋

theorem exact_of_nonneg (op : RoundingFunction) (hq : 0 ≤ q) :
    op.exact q = op.exactMagnitude false q := by
  cases op with
  | ceil => rfl
  | floor => rfl
  | round => exact if_neg (not_lt.mpr hq)
  | trunc => exact if_neg (not_lt.mpr hq)

theorem exact_neg (op : RoundingFunction) (hq : 0 ≤ q) :
    op.exact (-q) = -op.exactMagnitude true q := by
  cases op with
  | ceil => exact Int.ceil_neg
  | floor => exact Int.floor_neg
  | round =>
      rcases hq.eq_or_lt with rfl | hpos
      · norm_num [exact, exactMagnitude]
      · have hneg : -q < 0 := by linarith
        rw [exact, if_pos hneg, neg_neg]
        rfl
  | trunc =>
      rcases hq.eq_or_lt with rfl | hpos
      · norm_num [exact, exactMagnitude]
      · have hneg : -q < 0 := by linarith
        rw [exact, if_pos hneg, Int.ceil_neg]
        rfl

theorem exactMagnitude_nonneg (op : RoundingFunction) (negative : Bool) (hq : 0 ≤ q) :
    0 ≤ op.exactMagnitude negative q := by
  have hfloor : 0 ≤ ⌊q⌋ := Int.floor_nonneg.mpr hq
  have hceil : 0 ≤ ⌈q⌉ := Int.ceil_nonneg hq
  cases op with
  | ceil => cases negative <;> assumption
  | floor => cases negative <;> assumption
  | round => exact Int.floor_nonneg.mpr (by positivity)
  | trunc => exact hfloor

/-- The exact integer of a pattern has its sign. -/
theorem abs_exact (op : RoundingFunction) (denorm : Denorm) (x : FloatPackedFormat f) :
    |op.exact (x.value denorm)| = op.exactMagnitude (x.sign != 0) (x.magnitude denorm) := by
  have hq := magnitude_nonneg denorm x
  rw [value]
  by_cases hsign : x.sign = 0
  · rw [if_pos hsign, exact_of_nonneg op hq, abs_of_nonneg (exactMagnitude_nonneg op _ hq), hsign]
    rfl
  · rw [if_neg hsign, exact_neg op hq, abs_neg, abs_of_nonneg (exactMagnitude_nonneg op _ hq),
      bne_iff_ne.mpr hsign]

/-- A result of the same sign is compared by its absolute value. -/
theorem value_eq_exact_iff (op : RoundingFunction) (hsign : y.sign = x.sign) :
    y.value denorm = op.exact (x.value denorm) ↔
      y.magnitude denorm = op.exactMagnitude (x.sign != 0) (x.magnitude denorm) := by
  have hq := magnitude_nonneg denorm x
  rw [value, value, hsign]
  by_cases h : x.sign = 0
  · rw [if_pos h, if_pos h, exact_of_nonneg op hq, h]
    rfl
  · rw [if_neg h, if_neg h, exact_neg op hq, bne_iff_ne.mpr h, Int.cast_neg, neg_inj]

/-- An integer is its own rounding. -/
theorem exactMagnitude_natCast (op : RoundingFunction) (negative : Bool) (n : Nat) :
    op.exactMagnitude negative n = n := by
  have hhalf : ⌊(1 / 2 : ℚ)⌋ = 0 := by norm_num
  cases op with
  | ceil => cases negative <;> simp [exactMagnitude]
  | floor => cases negative <;> simp [exactMagnitude]
  | round =>
      show ⌊(n : ℚ) + 1 / 2⌋ = _
      rw [Int.floor_natCast_add, hhalf, add_zero]
  | trunc => simp [exactMagnitude]

/-- The integer that a function makes of a significand with `k` fraction bits. -/
def rounded (op : RoundingFunction) (sign : BitVec 1) (significand k : Nat) : Nat :=
  match op with
  | ceil => significand / 2 ^ k +
      if sign == 0 && decide (significand % 2 ^ k ≠ 0) then 1 else 0
  | floor => significand / 2 ^ k +
      if sign != 0 && decide (significand % 2 ^ k ≠ 0) then 1 else 0
  | round => significand / 2 ^ k + significand / 2 ^ (k - 1) % 2
  | trunc => significand / 2 ^ k

theorem floor_div_two_pow (S k : Nat) : ⌊(S : ℚ) / 2 ^ k⌋ = ((S / 2 ^ k : Nat) : ℤ) := by
  rw [← Nat.cast_ofNat (R := ℚ), ← Nat.cast_pow, Rat.floor_natCast_div_natCast]
  rfl

theorem ceil_div_two_pow (S k : Nat) :
    ⌈(S : ℚ) / 2 ^ k⌉ = ((S / 2 ^ k + if S % 2 ^ k ≠ 0 then 1 else 0 : Nat) : ℤ) := by
  have hdiv : (S : ℚ) = 2 ^ k * (S / 2 ^ k : Nat) + (S % 2 ^ k : Nat) := by
    exact_mod_cast (Nat.div_add_mod S (2 ^ k)).symm
  have hpow : (0 : ℚ) < 2 ^ k := by positivity
  have hmod : ((S % 2 ^ k : Nat) : ℚ) < 2 ^ k := by
    exact_mod_cast Nat.mod_lt S (Nat.two_pow_pos k)
  generalize S / 2 ^ k = a at hdiv
  generalize S % 2 ^ k = r at hdiv hmod
  rw [Int.ceil_eq_iff, lt_div_iff₀ hpow, div_le_iff₀ hpow, hdiv]
  by_cases hr : r = 0
  · rw [if_neg (not_not.mpr hr), hr]
    push_cast
    constructor
    · nlinarith
    · nlinarith
  · have hr' : (1 : ℚ) ≤ r := by exact_mod_cast Nat.one_le_iff_ne_zero.mpr hr
    rw [if_pos hr]
    push_cast
    constructor
    · nlinarith
    · nlinarith

theorem floor_div_two_pow_add_half (S k : Nat) :
    ⌊(S : ℚ) / 2 ^ (k + 1) + 1 / 2⌋ = ((S / 2 ^ (k + 1) + S / 2 ^ k % 2 : Nat) : ℤ) := by
  have hsum : (S : ℚ) / 2 ^ (k + 1) + 1 / 2 = ((S + 2 ^ k : Nat) : ℚ) / 2 ^ (k + 1) := by
    have hpow : (2 : ℚ) ^ k ≠ 0 := by positivity
    push_cast
    rw [pow_succ]
    field_simp
  have hdiv : (S + 2 ^ k) / 2 ^ (k + 1) = S / 2 ^ (k + 1) + S / 2 ^ k % 2 := by
    rw [Nat.pow_succ, ← Nat.div_div_eq_div_mul, ← Nat.div_div_eq_div_mul,
      Nat.add_div_right S (Nat.two_pow_pos k)]
    omega
  rw [hsum, floor_div_two_pow, hdiv]

/-- The integer is the exact one; `round` needs a fraction bit. -/
theorem exactMagnitude_div (op : RoundingFunction) (sign : BitVec 1) (S : Nat)
    (h : op = .round → k ≠ 0) :
    op.exactMagnitude (sign != 0) ((S : ℚ) / 2 ^ k) = (op.rounded sign S k : ℤ) := by
  have hnot : (sign == 0) = !(sign != 0) := by rw [bne, Bool.not_not]
  cases op with
  | ceil =>
      rw [exactMagnitude, rounded, hnot]
      cases sign != 0 with
      | true => exact floor_div_two_pow S k
      | false =>
          simp only [Bool.not_false, Bool.true_and, decide_eq_true_eq]
          exact ceil_div_two_pow S k
  | floor =>
      rw [exactMagnitude, rounded]
      cases sign != 0 with
      | true =>
          simp only [Bool.true_and, decide_eq_true_eq]
          exact ceil_div_two_pow S k
      | false => exact floor_div_two_pow S k
  | round =>
      obtain ⟨j, rfl⟩ := Nat.exists_eq_succ_of_ne_zero (h rfl)
      exact floor_div_two_pow_add_half S j
  | trunc => exact floor_div_two_pow S k

theorem rounded_bounds (op : RoundingFunction) (sign : BitVec 1) (S k : Nat) :
    S / 2 ^ k ≤ op.rounded sign S k ∧ op.rounded sign S k ≤ S / 2 ^ k + 1 := by
  cases op with
  | ceil => rw [rounded]; split <;> omega
  | floor => rw [rounded]; split <;> omega
  | round => rw [rounded]; omega
  | trunc => rw [rounded]; omega

/-! ## The functions on all patterns -/

theorem apply_result (op : RoundingFunction) (hfinite : (getSpecialCases denorm x).finite = true)
    (hzero : op ≠ .round → (getSpecialCases denorm x).zero = false) (hk : x.fractionBit.Holds k)
    (hround : op = .round → k ≠ 0) :
    (op.apply denorm x).result = x.stored (op.rounded x.sign x.significand k) k := by
  cases op with
  | ceil =>
      rw [apply, ceilInternal, roundToward_result _ hfinite (hzero nofun) hk]
      rfl
  | floor =>
      rw [apply, floorInternal, roundToward_result _ hfinite (hzero nofun) hk]
      rfl
  | round =>
      obtain ⟨j, rfl⟩ := Nat.exists_eq_succ_of_ne_zero (hround rfl)
      rw [apply, roundInternal_result hfinite hk]
      rfl
  | trunc =>
      have hresult : (floorInternal denorm { x with sign := 0 }).result =
          FloatPackedFormat.stored { x with sign := 0 } (x.significand / 2 ^ k) k := by
        rw [floorInternal,
          roundToward_result (x := { x with sign := 0 }) _ hfinite (hzero nofun) hk]
        rfl
      rw [apply, truncInternal, Shifted.result_bind, Shifted.result_pure, hresult, rounded, stored,
        stored]
      split_ifs <;> rfl

/-- What is not finite, an integer already, or a zero that the function looks for. -/
theorem apply_unchanged (op : RoundingFunction)
    (h : (getSpecialCases denorm x).finite = false ∨ x.fractionBit.value < 0 ∨
      (op ≠ .round ∧ (getSpecialCases denorm x).zero = true)) :
    op.apply denorm x = ⟨x, []⟩ := by
  have htoward : op ≠ .round → (getSpecialCases denorm x).finite = false ∨
      (getSpecialCases denorm x).zero = true ∨ x.fractionBit.value < 0 := by
    intro _
    rcases h with h | h | ⟨-, h⟩
    · exact .inl h
    · exact .inr (.inr h)
    · exact .inr (.inl h)
  cases op with
  | ceil => rw [apply, ceilInternal, roundToward_unchanged _ (htoward nofun)]
  | floor => rw [apply, floorInternal, roundToward_unchanged _ (htoward nofun)]
  | round =>
      rw [apply]
      apply roundInternal_unchanged
      rcases h with h | h | ⟨h, -⟩
      · exact .inl h
      · exact .inr h
      · exact absurd rfl h
  | trunc =>
      have hfloor : floorInternal denorm { x with sign := 0 } = ⟨{ x with sign := 0 }, []⟩ := by
        rw [floorInternal, roundToward_unchanged (x := { x with sign := 0 }) _ (htoward nofun)]
      rw [apply, truncInternal, hfloor]
      rfl

theorem apply_amounts (op : RoundingFunction) (hop : op ≠ .round) (denorm : Denorm)
    (x : FloatPackedFormat f) : ∀ n ∈ (op.apply denorm x).amounts, 0 ≤ n := by
  cases op with
  | ceil =>
      rw [apply, ceilInternal]
      exact roundToward_amounts _ denorm x
  | floor =>
      rw [apply, floorInternal]
      exact roundToward_amounts _ denorm x
  | round => exact absurd rfl hop
  | trunc =>
      intro n hn
      rw [apply, truncInternal, Shifted.amounts_bind, Shifted.amounts_pure, List.append_nil,
        floorInternal] at hn
      exact roundToward_amounts _ denorm _ n hn

theorem amounts_nonneg_iff (op : RoundingFunction)
    (hfinite : (getSpecialCases denorm x).finite = true) :
    (∀ n ∈ (op.apply denorm x).amounts, 0 ≤ n) ↔
      (op = .round → x.exponent.toNat ≠ f.mantissaWidth + f.bias) := by
  by_cases hop : op = .round
  · have hk := holds_fractionBit x
    subst hop
    rw [apply, roundInternal_amounts_iff hfinite, hk.value_eq]
    constructor
    · intro h _
      omega
    · intro h
      have hne := h rfl
      omega
  · exact ⟨fun _ h => absurd h hop, fun _ => apply_amounts op hop denorm x⟩

theorem apply_sign (op : RoundingFunction) (denorm : Denorm) (x : FloatPackedFormat f)
    (h : (op.apply denorm x).result = x ∨ ∃ N k, (op.apply denorm x).result = x.stored N k) :
    (op.apply denorm x).result.sign = x.sign := by
  rcases h with h | ⟨N, k, h⟩
  · rw [h]
  · rw [h, stored_sign]

/-- What is left to show for a finite pattern. -/
theorem roundsExactly_iff_of_finite (op : RoundingFunction)
    (hfinite : (getSpecialCases denorm x).finite = true)
    (hsign : (op.apply denorm x).result.sign = x.sign) :
    op.RoundsExactly denorm x ↔
      (op = .round → x.exponent.toNat ≠ f.mantissaWidth + f.bias) ∧
        (getSpecialCases denorm (op.apply denorm x).result).finite = true ∧
        (op.apply denorm x).result.magnitude denorm =
          op.exactMagnitude (x.sign != 0) (x.magnitude denorm) := by
  rw [RoundsExactly, if_pos hfinite, amounts_nonneg_iff op hfinite, value_eq_exact_iff op hsign]
  constructor
  · rintro ⟨hamounts, hresult, -, hvalue⟩
    exact ⟨hamounts, hresult, hvalue⟩
  · rintro ⟨hamounts, hresult, hvalue⟩
    exact ⟨hamounts, hresult, hsign, hvalue⟩

/-- The largest power of two below the infinities. -/
theorem one_lt_two_pow_maxExponent (f : Format) : 1 < 2 ^ (2 ^ f.exponentWidth - 1 - f.bias) := by
  have hbias := f.bias_lt
  exact Nat.one_lt_two_pow (by omega)

section Cases

variable (op : RoundingFunction) (denorm : Denorm) (x : FloatPackedFormat f)

/-- The exact integer is a number of the format, and `round_internal` has a bit to look at that
    decides. -/
def Representable : Prop :=
  |op.exact (x.value denorm)| < 2 ^ (2 ^ f.exponentWidth - 1 - f.bias) ∧
    (op = .round → x.exponent.toNat ≠ f.mantissaWidth + f.bias ∧
      ¬(f.bias = 1 ∧ x.exponent = 0 ∧
        (denorm = .on → 2 * x.mantissa.toNat < 2 ^ f.mantissaWidth)))

/-- Numbers without a fraction. -/
theorem roundsExactly_iff_integer (hfinite : (getSpecialCases denorm x).finite = true)
    (he : f.mantissaWidth + f.bias < x.exponent.toNat) :
    op.RoundsExactly denorm x ↔ op.Representable denorm x := by
  have hneg : x.fractionBit.value < 0 := by
    rw [(holds_fractionBit x).value_eq]
    omega
  have hunchanged : op.apply denorm x = ⟨x, []⟩ := apply_unchanged op (.inr (.inl hneg))
  obtain ⟨d, hd⟩ := Nat.exists_eq_add_of_lt he
  have hmagnitude : x.magnitude denorm = ((x.significand * 2 ^ (d + 1) : Nat) : ℚ) := by
    have hexp : (x.exponent.toNat - f.bias - f.mantissaWidth : ℤ) = (d + 1 : Nat) := by omega
    rw [magnitude_of_pos (by omega), hexp, zpow_natCast]
    push_cast
    rfl
  have hlt : x.significand * 2 ^ (d + 1) < 2 ^ (2 ^ f.exponentWidth - 1 - f.bias) := by
    have hfinite' := (finite_iff x).mp hfinite
    have hS := Nat.mul_lt_mul_of_pos_right (significand_lt x) (Nat.two_pow_pos (d + 1))
    rw [← Nat.pow_add] at hS
    exact Nat.lt_of_lt_of_le hS (Nat.pow_le_pow_right (by decide) (by omega))
  rw [roundsExactly_iff_of_finite op hfinite (apply_sign op denorm x (.inl (by rw [hunchanged]))),
    Representable, abs_exact, hunchanged, hmagnitude, exactMagnitude_natCast]
  have hzero : x.exponent ≠ 0 := by
    rw [ne_eq, exponent_eq_zero_iff]
    omega
  constructor
  · intro _
    exact ⟨by exact_mod_cast hlt, fun _ => ⟨by omega, fun h => hzero h.2.1⟩⟩
  · intro _
    exact ⟨fun _ => by omega, hfinite, by norm_cast⟩

/-- Normal numbers with a fraction, or with the unit as the last bit. -/
theorem roundsExactly_iff_normal (hfinite : (getSpecialCases denorm x).finite = true)
    (hpos : 0 < x.exponent.toNat) (he : x.exponent.toNat ≤ f.mantissaWidth + f.bias) :
    op.RoundsExactly denorm x ↔ op.Representable denorm x := by
  obtain ⟨k, hk⟩ := Nat.exists_eq_add_of_le he
  have hholds : x.fractionBit.Holds k := by
    have hbits : (f.mantissaWidth - (x.exponent.toNat - f.bias) : ℤ) = k := by omega
    exact hbits ▸ holds_fractionBit x
  have hne : x.exponent ≠ 0 := by
    rw [ne_eq, exponent_eq_zero_iff]
    omega
  have hzero : (getSpecialCases denorm x).zero = false := by
    rw [← Bool.not_eq_true, zero_iff]
    exact fun h => hne h.1
  by_cases hround : op = .round ∧ k = 0
  · -- The shift amount is negative
    obtain ⟨rfl, rfl⟩ := hround
    constructor
    · intro h
      have hamounts := (amounts_nonneg_iff round hfinite).mp h.1 rfl
      omega
    · intro h
      have hamounts := (h.2 rfl).1
      omega
  have hk0 : op = .round → k ≠ 0 := fun h h0 => hround ⟨h, h0⟩
  have hresult := apply_result op hfinite (fun _ => hzero) hholds hk0
  obtain ⟨hlow, hhigh⟩ := rounded_bounds op x.sign x.significand k
  have hiff := stored_exact_iff x denorm hpos ((finite_iff x).mp hfinite) hk.symm hlow hhigh
  rw [roundsExactly_iff_of_finite op hfinite (apply_sign op denorm x (.inr ⟨_, _, hresult⟩)),
    Representable, abs_exact, hresult, magnitude_eq_div hpos hk.symm,
    exactMagnitude_div op x.sign x.significand hk0, Int.cast_natCast, hiff]
  constructor
  · rintro ⟨-, hlt⟩
    refine ⟨by exact_mod_cast hlt, fun h => ⟨?_, fun h => hne h.2.1⟩⟩
    have hk' := hk0 h
    omega
  · rintro ⟨hlt, -⟩
    refine ⟨fun h => ?_, by exact_mod_cast hlt⟩
    have hk' := hk0 h
    omega

/-- Below one, only whether there is a fraction matters. -/
theorem rounded_eq_of_small {op : RoundingFunction} (hop : op ≠ .round) (sign : BitVec 1)
    {S T j k : Nat} (hS : S < 2 ^ j) (hS0 : S ≠ 0) (hT : T < 2 ^ k) (hT0 : T ≠ 0) :
    op.rounded sign S j = op.rounded sign T k := by
  cases op with
  | ceil => simp only [rounded, Nat.div_eq_of_lt, Nat.mod_eq_of_lt, hS, hT, ne_eq, hS0, hT0]
  | floor => simp only [rounded, Nat.div_eq_of_lt, Nat.mod_eq_of_lt, hS, hT, ne_eq, hS0, hT0]
  | round => exact absurd rfl hop
  | trunc => simp only [rounded, Nat.div_eq_of_lt, hS, hT]

/-- Zeros and denormals, for a function that looks for zeros. -/
theorem roundsExactly_of_exponent_eq_zero {op : RoundingFunction} (hop : op ≠ .round)
    (he : x.exponent = 0) (hfinite : (getSpecialCases denorm x).finite = true) :
    op.RoundsExactly denorm x ∧
      op.exactMagnitude (x.sign != 0) (x.magnitude denorm) ≤ 1 := by
  have hmagnitude := magnitude_of_exponent_eq_zero he denorm
  by_cases hzero : (getSpecialCases denorm x).zero = true
  · have hunchanged : op.apply denorm x = ⟨x, []⟩ := apply_unchanged op (.inr (.inr ⟨hop, hzero⟩))
    have hmantissa : (if denorm = .on then x.mantissa.toNat else 0) = 0 := by
      split
      next hon =>
        rw [((zero_iff x).mp hzero).2 hon]
        rfl
      next => rfl
    have hq : x.magnitude denorm = (0 : Nat) := by
      rw [hmagnitude, hmantissa, Nat.cast_zero, zero_div]
    rw [roundsExactly_iff_of_finite op hfinite (apply_sign op denorm x (.inl (by rw [hunchanged]))),
      hunchanged, hq, exactMagnitude_natCast]
    exact ⟨⟨fun h => absurd h hop, hfinite, rfl⟩, by decide⟩
  · -- A denormal number
    have hon : denorm = .on ∧ x.mantissa ≠ 0 := by
      rw [zero_iff] at hzero
      by_contra h
      exact hzero ⟨he, fun hon => by_contra fun hne => h ⟨hon, hne⟩⟩
    have hbias := f.bias_pos
    have hm0 : x.mantissa.toNat ≠ 0 := fun h => hon.2 (BitVec.toNat_inj.mp h)
    have hm : x.mantissa.toNat < 2 ^ (f.mantissaWidth + f.bias - 1) :=
      Nat.lt_of_lt_of_le x.mantissa.isLt (Nat.pow_le_pow_right (by decide) (by omega))
    have hS : x.significand < 2 ^ (f.mantissaWidth + f.bias) :=
      Nat.lt_of_lt_of_le (significand_lt x) (Nat.pow_le_pow_right (by decide) (by omega))
    have hS0 : x.significand ≠ 0 := by
      have hle := two_pow_le_significand x
      have hpow := Nat.two_pow_pos f.mantissaWidth
      omega
    have hholds : x.fractionBit.Holds (f.mantissaWidth + f.bias : Nat) := by
      have hbits : (f.mantissaWidth - (x.exponent.toNat - f.bias) : ℤ) =
          (f.mantissaWidth + f.bias : Nat) := by
        have he' := exponent_eq_zero_iff.mp he
        omega
      exact hbits ▸ holds_fractionBit x
    have hresult := apply_result op hfinite (fun _ => by simpa using hzero) hholds
      fun h => absurd h hop
    have hsmall := (rounded_bounds op x.sign x.significand (f.mantissaWidth + f.bias)).2
    rw [Nat.div_eq_of_lt hS] at hsmall
    have hstored := stored_small x denorm hsmall (f.mantissaWidth + f.bias)
    rw [roundsExactly_iff_of_finite op hfinite (apply_sign op denorm x (.inr ⟨_, _, hresult⟩)),
      hresult, hmagnitude, if_pos hon.1,
      exactMagnitude_div op x.sign x.mantissa.toNat fun h => absurd h hop,
      rounded_eq_of_small hop x.sign hm hm0 hS hS0]
    refine ⟨⟨fun h => absurd h hop, hstored.1, ?_⟩, by exact_mod_cast hsmall⟩
    rw [hstored.2, Int.cast_natCast]

/-- The bit that `round_internal` looks at for an exponent of zero, and the one it should. -/
theorem roundInternal_exponent_eq_zero (he : x.exponent = 0)
    (hfinite : (getSpecialCases denorm x).finite = true) :
    (round.RoundsExactly denorm x ↔
      ¬(f.bias = 1 ∧ (denorm = .on → 2 * x.mantissa.toNat < 2 ^ f.mantissaWidth))) ∧
      round.exactMagnitude (x.sign != 0) (x.magnitude denorm) ≤ 1 := by
  have hM := f.mantissaWidth_pos
  have hbias := f.bias_pos
  have he' := exponent_eq_zero_iff.mp he
  obtain ⟨i, hi⟩ : ∃ i, f.mantissaWidth + f.bias = i + 1 + 1 :=
    ⟨f.mantissaWidth + f.bias - 2, by omega⟩
  have hholds : x.fractionBit.Holds (i + 1 + 1 : Nat) := by
    have hbits : (f.mantissaWidth - (x.exponent.toNat - f.bias) : ℤ) = (i + 1 + 1 : Nat) := by
      omega
    exact hbits ▸ holds_fractionBit x
  have hresult := apply_result round hfinite (fun h => absurd rfl h) hholds
    fun _ => Nat.succ_ne_zero _
  have hS : x.significand < 2 ^ (i + 1 + 1) :=
    Nat.lt_of_lt_of_le (significand_lt x) (Nat.pow_le_pow_right (by decide) (by omega))
  have hmagnitude := magnitude_of_exponent_eq_zero he denorm
  rw [show f.mantissaWidth + f.bias - 1 = i + 1 by omega] at hmagnitude
  -- The exact integer, of the bits that count
  generalize hm' : (if denorm = .on then x.mantissa.toNat else 0) = m' at hmagnitude
  have hm : m' < 2 ^ f.mantissaWidth := by
    rw [← hm']
    split
    · exact x.mantissa.isLt
    · exact Nat.two_pow_pos _
  have hexact : round.exactMagnitude (x.sign != 0) (x.magnitude denorm) =
      ((m' / 2 ^ i % 2 : Nat) : ℤ) := by
    have hlt : m' < 2 ^ (i + 1) :=
      Nat.lt_of_lt_of_le hm (Nat.pow_le_pow_right (by decide) (by omega))
    rw [hmagnitude]
    show ⌊(m' : ℚ) / 2 ^ (i + 1) + 1 / 2⌋ = _
    rw [floor_div_two_pow_add_half, Nat.div_eq_of_lt hlt, Nat.zero_add]
  have hrounded : round.rounded x.sign x.significand (i + 1 + 1) =
      x.significand / 2 ^ (i + 1) % 2 := by
    rw [rounded, Nat.div_eq_of_lt hS, Nat.zero_add]
    rfl
  rw [hrounded] at hresult
  have hstored := stored_small x denorm (by omega : x.significand / 2 ^ (i + 1) % 2 ≤ 1) (i + 1 + 1)
  rw [roundsExactly_iff_of_finite round hfinite
    (apply_sign round denorm x (.inr ⟨_, _, hresult⟩)), hresult, hstored.2, hexact]
  refine ⟨?_, by exact_mod_cast Nat.le_of_lt_succ (Nat.mod_lt _ (by decide))⟩
  have hiff : (((x.significand / 2 ^ (i + 1) % 2 : Nat) : ℚ) =
      (((m' / 2 ^ i % 2 : Nat) : ℤ) : ℚ)) ↔
        x.significand / 2 ^ (i + 1) % 2 = m' / 2 ^ i % 2 := by
    rw [Int.cast_natCast, Nat.cast_inj]
  rw [hiff]
  have hcond : (denorm = .on → 2 * x.mantissa.toNat < 2 ^ f.mantissaWidth) ↔
      2 * m' < 2 ^ f.mantissaWidth := by
    rw [← hm']
    have hpow := Nat.two_pow_pos f.mantissaWidth
    by_cases hon : denorm = .on
    · rw [if_pos hon]
      exact ⟨fun h => h hon, fun h _ => h⟩
    · rw [if_neg hon]
      exact ⟨fun _ => by omega, fun _ h => absurd h hon⟩
  rw [hcond]
  have hamounts : round = .round → x.exponent.toNat ≠ f.mantissaWidth + f.bias := fun _ => by omega
  have hvalue : x.significand / 2 ^ (i + 1) % 2 = m' / 2 ^ i % 2 ↔
      ¬(f.bias = 1 ∧ 2 * m' < 2 ^ f.mantissaWidth) := by
    by_cases hone : f.bias = 1
    · -- The leading one itself is the bit
      have hwidth : f.mantissaWidth = i + 1 := by omega
      have hlead : x.significand / 2 ^ (i + 1) = 1 := by
        have hlow := two_pow_le_significand x
        have hhigh := significand_lt x
        rw [hwidth] at hlow hhigh
        apply Nat.div_eq_of_lt_le
        · rw [Nat.one_mul]
          exact hlow
        · rw [← Nat.pow_succ']
          exact hhigh
      rw [hlead]
      rw [hwidth, Nat.pow_succ] at hm ⊢
      have hpow := Nat.two_pow_pos i
      rcases Nat.lt_or_ge m' (2 ^ i) with hlt | hge
      · rw [Nat.div_eq_of_lt hlt]
        omega
      · have hdiv : m' / 2 ^ i = 1 := by
          apply Nat.div_eq_of_lt_le
          · omega
          · omega
        rw [hdiv]
        omega
    · have hle : 2 ^ (f.mantissaWidth + 1) ≤ 2 ^ (i + 1) :=
        Nat.pow_le_pow_right (by decide) (by omega)
      have hle' : 2 ^ f.mantissaWidth ≤ 2 ^ i := Nat.pow_le_pow_right (by decide) (by omega)
      rw [Nat.div_eq_of_lt (Nat.lt_of_lt_of_le (significand_lt x) hle),
        Nat.div_eq_of_lt (Nat.lt_of_lt_of_le hm hle')]
      exact ⟨fun _ h => hone h.1, fun _ => rfl⟩
  rw [hvalue]
  exact ⟨fun h => h.2.2, fun h => ⟨hamounts, hstored.1, h⟩⟩

/-- Zeros and denormals. -/
theorem roundsExactly_iff_exponent_eq_zero (he : x.exponent = 0)
    (hfinite : (getSpecialCases denorm x).finite = true) :
    op.RoundsExactly denorm x ↔ op.Representable denorm x := by
  have hone := one_lt_two_pow_maxExponent f
  have hbias := f.bias_pos
  have he' := exponent_eq_zero_iff.mp he
  have hlt : ∀ n : ℤ, n ≤ 1 → n < 2 ^ (2 ^ f.exponentWidth - 1 - f.bias) := by
    intro n hn
    exact Int.lt_of_le_of_lt hn (by exact_mod_cast hone)
  rw [Representable, abs_exact]
  by_cases hop : op = .round
  · subst hop
    obtain ⟨hiff, hsmall⟩ := roundInternal_exponent_eq_zero denorm x he hfinite
    rw [hiff]
    constructor
    · intro h
      exact ⟨hlt _ hsmall, fun _ => ⟨by omega, fun h' => h ⟨h'.1, h'.2.2⟩⟩⟩
    · intro h h'
      exact (h.2 rfl).2 ⟨h'.1, he, h'.2⟩
  · obtain ⟨hexact, hsmall⟩ := roundsExactly_of_exponent_eq_zero denorm x hop he hfinite
    exact ⟨fun _ => ⟨hlt _ hsmall, fun h => absurd h hop⟩, fun _ => hexact⟩

/-- Each function rounds a finite pattern exactly if and only if the integer is a number of the
    format and, for `round_internal`, the number has not the unit as its last bit, and is not, in
    a format whose smallest normal number is one, a zero or denormal below one half; patterns that
    are not finite are always returned as they are. -/
theorem roundsExactly_iff :
    op.RoundsExactly denorm x ↔
      ((getSpecialCases denorm x).finite = true → op.Representable denorm x) := by
  by_cases hfinite : (getSpecialCases denorm x).finite = true
  · have hiff : op.RoundsExactly denorm x ↔ op.Representable denorm x := by
      rcases Nat.lt_or_ge (f.mantissaWidth + f.bias) x.exponent.toNat with h | h
      · exact roundsExactly_iff_integer op denorm x hfinite h
      rcases Nat.eq_zero_or_pos x.exponent.toNat with h0 | hpos
      · exact roundsExactly_iff_exponent_eq_zero op denorm x (exponent_eq_zero_iff.mpr h0) hfinite
      · exact roundsExactly_iff_normal op denorm x hfinite hpos h
    rw [hiff]
    exact ⟨fun h _ => h, fun h => h hfinite⟩
  · have hunchanged : op.apply denorm x = ⟨x, []⟩ :=
      apply_unchanged op (.inl (Bool.not_eq_true _ ▸ hfinite))
    refine ⟨fun _ h => absurd h hfinite, fun _ => ?_⟩
    rw [RoundsExactly, if_neg hfinite, hunchanged]
    exact ⟨fun n hn => (nomatch hn), rfl⟩

end Cases

/-- `float32`. -/
def float32 : Format where
  mantissaWidth := 23
  exponentWidth := 8
  bias := 127
  mantissaWidth_pos := by decide
  bias_pos := by decide
  bias_lt := by decide
  fractionBit_lt := by decide

/-- The smallest number of `float32` that has the unit as its last bit: `round_internal` shifts by
    minus one. -/
theorem round_not_roundsExactly :
    (-1 : ℤ) ∈ (round.apply .on (⟨0, 150, 0⟩ : FloatPackedFormat float32)).amounts ∧
      ¬round.RoundsExactly .on (⟨0, 150, 0⟩ : FloatPackedFormat float32) := by
  have hmem : (-1 : ℤ) ∈ (round.apply .on (⟨0, 150, 0⟩ : FloatPackedFormat float32)).amounts := by
    decide +kernel
  refine ⟨hmem, fun h => ?_⟩
  have hnonneg := h.1 _ hmem
  omega

end RoundingFunction

end Kanagawa.Library
