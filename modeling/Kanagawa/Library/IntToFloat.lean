/-
  Kanagawa.Library.IntToFloat

  Integers as floating-point numbers (`int_to_float`, `numeric/float/internal.k`).

  The exponent of the pattern has the width of the format only, and is compared with the one of the
  infinities after it has been cut off: an integer that is far too large gets the pattern of some
  other number.
-/
import Kanagawa.Lib.NearestEven
import Kanagawa.Library.Arrays
import Kanagawa.Library.FloatFormat
import Kanagawa.Library.Modular

namespace Kanagawa.Library

open Frontend Lib Lib.Except Lib.NearestEven Lib.TwosComplement Kanagawa.Library.Modular

/-- An integer type. -/
structure IntegerType where
  type : Ty
  isIntType : IsIntType type
  width_pos : 0 < widthOf type

/-- Inference takes a left shift by an index of the bits of the type. -/
structure IndexedType extends IntegerType where
  index_lt : widthOf (tSub (indexType (widthOf type).toNat) (IntValue.const 1).type) < 20

/-- A value of an integer type. -/
structure Integer (t : IndexedType) where
  value : Int
  inRange : InRange t.type value

variable {f : Format} {t : IndexedType}

/-! ## The function -/

/-- `highest_one`, of `data/bits.k`. -/
def highestOneOf (value : IntValue) : Option IntValue :=
  let width := (widthOf value.type).toNat
  (highestOne ((List.range width).map value.bit)).map fun i =>
    (IntValue.const i).cast (indexType width)

/-- `sub` of `numeric.int.operator.unsigned`. -/
def unsignedSub (t u : IntValue) : Except Failure IntValue := do
  assert (u.value ≤ t.value)
  return (t.sub u).cast t.type

/-- `++`. -/
def increment (a : IntValue) : IntValue := (a.add (.const 1)).cast a.type

/-- `result_width_t`. -/
def patternType (f : Format) : Ty := .unsigned (1 + f.exponentWidth + f.mantissaWidth : Nat)

/-- The last three assignments to `result`. -/
def assemble (f : Format) (sign exponent mantissa : IntValue) : IntValue :=
  let result := ((sign.cast (patternType f)).shiftLeft (f.mantissaWidth + f.exponentWidth)).cast
    (patternType f)
  let result := (result.or ((exponent.cast (patternType f)).shiftLeft f.mantissaWidth)).cast
    (patternType f)
  (result.or mantissa).cast (patternType f)

/-- `computed_mantissa`, rounded. -/
def roundMantissa (f : Format) (integerValue shift : IntValue) : IntValue :=
  let computed := (integerValue.shiftRightBy shift).result.cast (.unsigned (f.mantissaWidth + 2 : Nat))
  let discardedBitsMask := ((IntValue.const 1).shiftLeftBy shift).result.sub (.const 1)
  let exactlyOneHalf := ((IntValue.const 1).shiftLeftBy (shift.sub (.const 1))).result
  let bitsToRemove := integerValue.and discardedBitsMask
  if bitsToRemove.value > exactlyOneHalf.value then increment computed
  else if bitsToRemove.value = exactlyOneHalf.value then
    -- round to nearest even
    if (computed.andLiteral 1).value = 1 then increment computed else computed
  else computed

/-- The exponent and the mantissa of an integer with more bits than the mantissa. -/
def roundIntegral (f : Format) (integerValue shift : IntValue) : IntValue × IntValue :=
  let computed := roundMantissa f integerValue shift
  let mantissaOverflowed := ((IntValue.const 1).shiftLeft (f.mantissaWidth + 1)).cast
    (.unsigned (f.mantissaWidth + 2 : Nat))
  let exponent := ((IntValue.const (f.bias + f.mantissaWidth : Nat)).add shift).cast
    (.unsigned f.exponentWidth)
  let exponent :=
    if computed.value ≥ mantissaOverflowed.value then increment exponent else exponent
  -- check for infinity case; adjust mantissa accordingly
  let computed := if exponent.value = 2 ^ f.exponentWidth - 1 then
    (IntValue.const 0).cast computed.type else computed
  (exponent, computed.cast (.unsigned f.mantissaWidth))

/-- `int_to_float`. -/
def intToFloat (f : Format) (input : IntValue) : Except Failure IntValue := do
  let integerType := Ty.unsigned (widthOf input.type)
  let negative := decide (input.value < 0)
  let sign : IntValue := ⟨.unsigned 1, if negative then 1 else 0⟩
  let integerValue := (if negative then input.neg else input).cast integerType
  match highestOneOf integerValue with
  | none => return ⟨patternType f, 0⟩
  | some ndxHighBit =>
      if ndxHighBit.value > f.mantissaWidth then
        let shift ← unsignedSub ndxHighBit (.const f.mantissaWidth)
        let fields := roundIntegral f integerValue shift
        return assemble f sign fields.1 fields.2
      else
        let shift ← unsignedSub (.const f.mantissaWidth) ndxHighBit
        let mantissa := (integerValue.shiftLeftBy shift).result.cast (.unsigned f.mantissaWidth)
        let exponent := ((IntValue.const (f.bias + f.mantissaWidth : Nat)).sub shift).cast
          (.unsigned f.exponentWidth)
        return assemble f sign exponent mantissa

/-! ## Patterns -/

namespace FloatPackedFormat

/-- The bits of a packed structure. -/
def pattern (x : FloatPackedFormat f) : Nat :=
  (x.sign.toNat * 2 ^ f.exponentWidth + x.exponent.toNat) * 2 ^ f.mantissaWidth + x.mantissa.toNat

theorem pattern_lt (x : FloatPackedFormat f) :
    x.pattern < 2 ^ (1 + f.exponentWidth + f.mantissaWidth) := by
  have hs := x.sign.isLt
  have he := x.exponent.isLt
  have hm := x.mantissa.isLt
  have hhigh : x.sign.toNat * 2 ^ f.exponentWidth + x.exponent.toNat + 1 ≤
      2 ^ 1 * 2 ^ f.exponentWidth := by
    have hmul : (x.sign.toNat + 1) * 2 ^ f.exponentWidth ≤ 2 ^ 1 * 2 ^ f.exponentWidth :=
      Nat.mul_le_mul_right _ hs
    rw [Nat.add_mul, Nat.one_mul] at hmul
    omega
  have hmul := Nat.mul_le_mul_right (2 ^ f.mantissaWidth) hhigh
  rw [Nat.add_mul, Nat.one_mul] at hmul
  rw [pattern, Nat.pow_add, Nat.pow_add]
  omega

/-- The fields can be read off. -/
theorem pattern_injective {x y : FloatPackedFormat f} (h : x.pattern = y.pattern) : x = y := by
  obtain ⟨xm, xe, xs⟩ := x
  obtain ⟨ym, ye, ys⟩ := y
  have hsplit : ∀ {a b c d w : Nat}, b < 2 ^ w → d < 2 ^ w → a * 2 ^ w + b = c * 2 ^ w + d →
      a = c ∧ b = d := by
    intro a b c d w hb hd heq
    have hlow : (a * 2 ^ w + b) % 2 ^ w = (c * 2 ^ w + d) % 2 ^ w := by rw [heq]
    rw [Nat.mul_add_mod_of_lt hb, Nat.mul_add_mod_of_lt hd] at hlow
    subst hlow
    exact ⟨Nat.eq_of_mul_eq_mul_right (Nat.two_pow_pos w) (Nat.add_right_cancel heq), rfl⟩
  obtain ⟨hhigh, hm⟩ := hsplit xm.isLt ym.isLt h
  obtain ⟨hs, he⟩ := hsplit xe.isLt ye.isLt hhigh
  have hs' : xs = ys := BitVec.toNat_inj.mp hs
  rw [BitVec.toNat_inj.mp hm, BitVec.toNat_inj.mp he, hs']

end FloatPackedFormat

/-- The bits of two fields next to each other. -/
theorem lor_shift {a b w : Nat} (hb : b < 2 ^ w) :
    Int.lor ((a : Int) * 2 ^ w) b = ((a * 2 ^ w + b : Nat) : Int) := by
  have hor := Nat.two_pow_add_eq_or_of_lt hb a
  have hnat : Int.lor ((a : Int) * 2 ^ w) b = ((2 ^ w * a ||| b : Nat) : Int) := by
    rw [Nat.mul_comm]
    exact_mod_cast rfl
  rw [hnat, ← hor, Nat.mul_comm]

/-- The fields are put together. -/
theorem assemble_eq {sign exponent mantissa : IntValue} (x : FloatPackedFormat f)
    (hs : sign.Holds x.sign.toNat) (he : exponent.Holds x.exponent.toNat)
    (hm : mantissa.Holds x.mantissa.toNat) :
    assemble f sign exponent mantissa = ⟨patternType f, x.pattern⟩ := by
  have hsign := x.sign.isLt
  have hexponent := x.exponent.isLt
  have hmantissa := x.mantissa.isLt
  have htype : IsIntType (patternType f) := .unsigned _
  have hlt := x.pattern_lt
  have hpos : 0 < 1 + f.exponentWidth + f.mantissaWidth := by omega
  have hpowM := Nat.two_pow_pos f.mantissaWidth
  have hpowE := Nat.two_pow_pos f.exponentWidth
  have hfits : ∀ n : Nat, n ≤ x.pattern → InRange (patternType f) n := fun n hn =>
    IntValue.inRange_natCast hpos (Nat.lt_of_le_of_lt hn hlt)
  rw [FloatPackedFormat.pattern] at hfits hlt ⊢
  generalize x.sign.toNat = s at *
  generalize x.exponent.toNat = e at *
  generalize x.mantissa.toNat = m at *
  have hse : s * 2 ^ f.exponentWidth ≤ (s * 2 ^ f.exponentWidth + e) := Nat.le_add_right _ _
  have hle1 := Nat.mul_le_mul_right (2 ^ f.mantissaWidth) hse
  have hle2 : e * 2 ^ f.mantissaWidth ≤ (s * 2 ^ f.exponentWidth + e) * 2 ^ f.mantissaWidth :=
    Nat.mul_le_mul_right _ (Nat.le_add_left _ _)
  have hsmall : s ≤ s * 2 ^ f.exponentWidth * 2 ^ f.mantissaWidth := by
    rw [Nat.mul_assoc]
    exact Nat.le_mul_of_pos_right _ (Nat.mul_pos hpowE hpowM)
  have hesmall : e ≤ e * 2 ^ f.mantissaWidth := Nat.le_mul_of_pos_right _ hpowM
  -- The sign, then the exponent, then the mantissa
  have h1 := (hs.cast htype (hfits s (by omega))).shiftLeft (f.mantissaWidth + f.exponentWidth)
  have h1' : ((s : Int) * 2 ^ (f.mantissaWidth + f.exponentWidth)) =
      ((s * 2 ^ f.exponentWidth * 2 ^ f.mantissaWidth : Nat) : Int) := by
    push_cast
    ring
  rw [h1'] at h1
  have h2 := (h1.cast htype (hfits _ (by omega))).or
    ((he.cast htype (hfits e (by omega))).shiftLeft f.mantissaWidth)
  have h2' : Int.lor ((s * 2 ^ f.exponentWidth * 2 ^ f.mantissaWidth : Nat) : Int)
      ((e : Int) * 2 ^ f.mantissaWidth) =
        (((s * 2 ^ f.exponentWidth + e) * 2 ^ f.mantissaWidth : Nat) : Int) := by
    have hlor := lor_shift (a := s) (b := e * 2 ^ f.mantissaWidth)
      (w := f.exponentWidth + f.mantissaWidth) (by
        rw [Nat.pow_add]
        exact Nat.mul_lt_mul_of_pos_right hexponent hpowM)
    have hassoc : s * 2 ^ (f.exponentWidth + f.mantissaWidth) =
        s * 2 ^ f.exponentWidth * 2 ^ f.mantissaWidth := by rw [Nat.pow_add, Nat.mul_assoc]
    rw [hassoc, ← Nat.add_mul] at hlor
    rw [← hlor, ← hassoc]
    push_cast
    rfl
  rw [h2'] at h2
  have h3 := (h2.cast htype (hfits _ (by omega))).or hm
  have h3' := lor_shift (a := s * 2 ^ f.exponentWidth + e) hmantissa
  rw [Nat.cast_mul, Nat.cast_pow, Nat.cast_ofNat, h3'] at h3
  exact (h3.cast htype (hfits _ le_rfl)).eq_mk

/-! ## The highest bit -/

theorem highestOne_testBit {v : Nat} : ∀ {w : Nat}, v < 2 ^ w →
    highestOne ((List.range w).map v.testBit) = if v = 0 then none else some v.log2 := by
  intro w
  induction w with
  | zero =>
      intro hv
      rw [if_pos (by simpa using hv)]
      rfl
  | succ w ih =>
      intro hv
      rw [List.range_succ, List.map_append, List.map_singleton, highestOne_append, List.length_map,
        List.length_range]
      cases hbit : v.testBit w with
      | true =>
          have hle := Nat.ge_two_pow_of_testBit hbit
          have hne : v ≠ 0 := by
            have hpow := Nat.two_pow_pos w
            omega
          rw [if_pos rfl, if_neg hne, (Nat.log2_eq_iff hne).mpr ⟨hle, hv⟩]
      | false =>
          rw [if_neg Bool.false_ne_true]
          apply ih
          by_contra hge
          have hset := Nat.testBit_of_two_pow_le_and_two_pow_add_one_gt (not_lt.mp hge) hv
          rw [hset] at hbit
          exact nomatch hbit

theorem inRange_indexType {M : Nat} {v : Int} (h0 : 0 ≤ v) (h : v < M) :
    InRange (indexType M) v := by
  rw [← convert_indexType_of_lt h0 h]
  apply inRange_convert (isIntType_indexType M)
  rw [indexType]
  split
  next hM => exact clog2_pos (by exact_mod_cast hM)
  next => decide

/-- `highest_one` finds the logarithm. -/
theorem highestOneOf_eq {w n : Nat} {a : IntValue} (ha : a.Holds n) (htype : a.type = .unsigned w)
    (hn : n < 2 ^ w) :
    (n = 0 ∧ highestOneOf a = none) ∨
      (n ≠ 0 ∧ ∃ ndx, highestOneOf a = some ndx ∧ ndx.type = indexType w ∧ ndx.Holds n.log2) := by
  have hw : (widthOf a.type).toNat = w := by
    rw [htype]
    rfl
  have hbits : (List.range w).map a.bit = (List.range w).map n.testBit := by
    apply List.map_congr_left
    intro i _
    show (a.value % 2 ^ (widthOf a.type).toNat).toNat.testBit i = _
    have hmod : ((n : Int) % 2 ^ w) = n := Int.emod_eq_of_lt (by omega) (by exact_mod_cast hn)
    rw [hw, ha.value_eq, hmod, Int.toNat_natCast]
  rw [highestOneOf, hw, hbits, highestOne_testBit hn]
  by_cases h0 : n = 0
  · rw [if_pos h0]
    exact .inl ⟨h0, rfl⟩
  · rw [if_neg h0]
    have hlog : n.log2 < w := (Nat.log2_lt h0).mpr hn
    refine .inr ⟨h0, _, rfl, rfl, ?_⟩
    exact (IntValue.holds_const _).cast (isIntType_indexType w)
      (inRange_indexType (by omega) (by exact_mod_cast hlog))

/-! ## Rounding -/

section Rounding

variable {integerValue shift : IntValue} {n s : Nat}
  (hn : integerValue.Holds n) (hs : shift.Holds s) (hs0 : 0 < s)
  (hwidth : widthOf shift.type < 20)
  (hwidth1 : widthOf (shift.sub (.const 1)).type < 20)

theorem holds_increment {a : IntValue} {v : Int} (ha : a.Holds v) (h : InRange a.type (v + 1)) :
    (increment a).Holds (v + 1) :=
  (ha.add (IntValue.holds_const 1)).cast ha.isIntType h

include hn hs hs0 hwidth hwidth1

theorem holds_roundMantissa (hlow : 2 ^ (f.mantissaWidth + 1 - 1 + s) ≤ n)
    (hhigh : n < 2 ^ (f.mantissaWidth + 1 + s)) :
    (roundMantissa f integerValue shift).Holds (significand n s) ∧
      (roundMantissa f integerValue shift).type = .unsigned (f.mantissaWidth + 2 : Nat) := by
  have hpow := Nat.two_pow_pos (s - 1)
  have hbounds := (significand_bounds hlow hhigh).2
  have hdouble : 2 ^ (f.mantissaWidth + 2) = 2 * 2 ^ (f.mantissaWidth + 1) := Nat.pow_succ'
  have hpowM := Nat.two_pow_pos (f.mantissaWidth + 1)
  have hfits : ∀ m : Nat, m ≤ significand n s →
      InRange (.unsigned (f.mantissaWidth + 2 : Nat)) m := fun m hm =>
    IntValue.inRange_natCast (Nat.succ_pos _) (by omega)
  have hcomputed : ((integerValue.shiftRightBy shift).result.cast
      (.unsigned (f.mantissaWidth + 2 : Nat))).Holds (n / 2 ^ s : Nat) := by
    have hdiv := hn.shiftRightBy hs (Int.natCast_nonneg s)
    rw [Int.toNat_natCast] at hdiv
    have hle : n / 2 ^ s ≤ significand n s := Nat.le_add_right _ _
    have hcast := hdiv.cast (.unsigned _) (by exact_mod_cast hfits _ hle)
    exact_mod_cast hcast
  have hmask := ((IntValue.holds_const 1).shiftLeftBy hs (Int.natCast_nonneg s) hwidth).sub
    (IntValue.holds_const 1)
  have hbits := hn.and hmask
  have hland : Int.land n (1 * 2 ^ (s : Int).toNat - 1) = ((n % 2 ^ s : Nat) : Int) := by
    have hones : (1 * 2 ^ (s : Int).toNat - 1 : Int) = ((2 ^ s - 1 : Nat) : Int) := by
      rw [Int.toNat_natCast]
      push_cast [Nat.one_le_two_pow]
      ring
    rw [hones, ← Nat.and_two_pow_sub_one_eq_mod]
    rfl
  rw [hland] at hbits
  have hless := hs.sub (IntValue.holds_const 1)
  have hhalf := (IntValue.holds_const 1).shiftLeftBy hless (by omega) hwidth1
  have hhalf' : (1 * 2 ^ ((s : Int) - 1).toNat : Int) = ((2 ^ (s - 1) : Nat) : Int) := by
    rw [show ((s : Int) - 1).toNat = s - 1 by omega, one_mul]
    push_cast
    rfl
  rw [hhalf'] at hhalf
  have hsplit : 2 ^ s = 2 * 2 ^ (s - 1) := by
    rw [← Nat.pow_succ']
    congr 1
    omega
  have hodd := hcomputed.andLiteral 1
  have hodd' : Int.land ((n / 2 ^ s : Nat) : Int) 1 = ((n / 2 ^ s % 2 : Nat) : Int) := by
    rw [← Nat.and_one_is_mod]
    rfl
  rw [hodd'] at hodd
  have htypes : ∀ a : IntValue, (increment a).type = a.type := fun a => rfl
  rw [roundMantissa, hbits.value_eq, hhalf.value_eq, hodd.value_eq]
  by_cases hup : roundsUp n s = true
  · have hsig : significand n s = n / 2 ^ s + 1 := by rw [significand, if_pos hup]
    have hincrement := holds_increment hcomputed (by exact_mod_cast hfits _ hsig.ge)
    have hgoal : (increment ((integerValue.shiftRightBy shift).result.cast
        (.unsigned (f.mantissaWidth + 2 : Nat)))).Holds (significand n s) := by
      rw [hsig]
      exact_mod_cast hincrement
    simp only [roundsUp, Bool.or_eq_true, Bool.and_eq_true, decide_eq_true_eq] at hup
    rcases hup with hup | ⟨htie, hup⟩
    · rw [if_pos (by omega)]
      exact ⟨hgoal, rfl⟩
    · rw [if_neg (by omega), if_pos (by omega), if_pos (by omega)]
      exact ⟨hgoal, rfl⟩
  · have hsig : significand n s = n / 2 ^ s := by rw [significand, if_neg hup, Nat.add_zero]
    simp only [roundsUp, Bool.or_eq_true, Bool.and_eq_true, decide_eq_true_eq, not_or, not_and]
      at hup
    rw [hsig, if_neg (by omega)]
    split
    next htie =>
      rw [if_neg (by omega)]
      exact ⟨hcomputed, rfl⟩
    next => exact ⟨hcomputed, rfl⟩

/-- The carry of a rounded significand. -/
def carry (f : Format) (c : Nat) : Nat := if c = 2 ^ (f.mantissaWidth + 1) then 1 else 0

/-- The exponent is cut off before it is compared with the one of the infinities. -/
theorem holds_roundIntegral (hlow : 2 ^ (f.mantissaWidth + 1 - 1 + s) ≤ n)
    (hhigh : n < 2 ^ (f.mantissaWidth + 1 + s)) :
    (roundIntegral f integerValue shift).1.Holds
        ((f.bias + f.mantissaWidth + s + carry f (significand n s)) % 2 ^ f.exponentWidth : Nat) ∧
      (roundIntegral f integerValue shift).2.Holds
        ((if (f.bias + f.mantissaWidth + s + carry f (significand n s)) % 2 ^ f.exponentWidth =
          2 ^ f.exponentWidth - 1 then 0 else significand n s) % 2 ^ f.mantissaWidth : Nat) := by
  obtain ⟨hcomputed, htype⟩ := holds_roundMantissa hn hs hs0 hwidth hwidth1 hlow hhigh
  have hbounds := (significand_bounds hlow hhigh).2
  have hE := FloatPackedFormat.exponentWidth_pos f
  have hpowE := Nat.two_pow_pos f.exponentWidth
  have hsum := (IntValue.holds_const (f.bias + f.mantissaWidth : Nat)).add hs
  have hexponent := IntValue.Holds.cast_unsigned hE (by exact_mod_cast hsum)
  have hoverflowed : (((IntValue.const 1).shiftLeft (f.mantissaWidth + 1)).cast
      (.unsigned (f.mantissaWidth + 2 : Nat))).value = (2 ^ (f.mantissaWidth + 1) : Nat) := by
    have hshift := (IntValue.holds_const 1).shiftLeft (f.mantissaWidth + 1)
    have hone : (1 * 2 ^ (f.mantissaWidth + 1) : Int) = (2 ^ (f.mantissaWidth + 1) : Nat) := by
      rw [one_mul]
      push_cast
      rfl
    rw [hone] at hshift
    exact (hshift.cast (.unsigned _) (IntValue.inRange_natCast (Nat.succ_pos _)
      (Nat.pow_lt_pow_right (by decide) (Nat.lt_succ_self _)))).value_eq
  have hcarried : (if (roundMantissa f integerValue shift).value ≥
      (((IntValue.const 1).shiftLeft (f.mantissaWidth + 1)).cast
        (.unsigned (f.mantissaWidth + 2 : Nat))).value then
      increment (((IntValue.const (f.bias + f.mantissaWidth : Nat)).add shift).cast
        (.unsigned f.exponentWidth))
      else ((IntValue.const (f.bias + f.mantissaWidth : Nat)).add shift).cast
        (.unsigned f.exponentWidth)).Holds
      ((f.bias + f.mantissaWidth + s + carry f (significand n s)) % 2 ^ f.exponentWidth : Nat) := by
    rw [hcomputed.value_eq, hoverflowed, carry]
    by_cases hc : significand n s = 2 ^ (f.mantissaWidth + 1)
    · rw [if_pos (by exact_mod_cast hc.ge), if_pos hc]
      have hsum := hexponent.add (IntValue.holds_const 1)
      have hcut := IntValue.Holds.cast_unsigned hE (by exact_mod_cast hsum)
      rw [Nat.mod_add_mod] at hcut
      exact hcut
    · rw [if_neg (by norm_cast; omega), if_neg hc]
      exact hexponent
  refine ⟨hcarried, ?_⟩
  rw [roundIntegral]
  dsimp only
  have hvalue := hcarried.value_eq
  have hinfinity : ∀ e : Nat, (e : Int) = 2 ^ f.exponentWidth - 1 ↔ e = 2 ^ f.exponentWidth - 1 := by
    intro e
    have hcast : ((2 ^ f.exponentWidth : Nat) : Int) = 2 ^ f.exponentWidth := by push_cast; rfl
    rw [← hcast]
    omega
  have hcondition := hinfinity
    ((f.bias + f.mantissaWidth + s + carry f (significand n s)) % 2 ^ f.exponentWidth)
  rw [← hvalue] at hcondition
  by_cases hinf : (f.bias + f.mantissaWidth + s + carry f (significand n s)) %
      2 ^ f.exponentWidth = 2 ^ f.exponentWidth - 1
  · rw [if_pos (hcondition.mpr hinf), if_pos hinf]
    apply IntValue.Holds.cast_unsigned f.mantissaWidth_pos
    rw [htype]
    exact (IntValue.holds_const 0).cast (.unsigned _)
      (IntValue.inRange_natCast (n := 0) (Nat.succ_pos _) (Nat.two_pow_pos _))
  · rw [if_neg fun h => hinf (hcondition.mp h), if_neg hinf]
    exact hcomputed.cast_unsigned f.mantissaWidth_pos

end Rounding

/-! ## The pattern of an integer -/

theorem log2_nearestEven {n : Nat} (hn : 2 ^ (f.mantissaWidth + 1) ≤ n) :
    (nearestEven (f.mantissaWidth + 1) n).log2 = f.mantissaWidth + discarded (f.mantissaWidth + 1) n +
      carry f (significand n (discarded (f.mantissaWidth + 1) n)) := by
  have hpow := Nat.two_pow_pos (f.mantissaWidth + 1)
  have hlog : f.mantissaWidth + 1 ≤ n.log2 := (Nat.le_log2 (by omega)).mpr hn
  have hpos : 0 < discarded (f.mantissaWidth + 1) n := by
    rw [discarded]
    omega
  obtain ⟨hlow, hhigh⟩ := discarded_bounds (by omega) hpos (by omega)
  obtain ⟨hle, hge⟩ := significand_bounds hlow hhigh
  rw [nearestEven]
  generalize discarded (f.mantissaWidth + 1) n = s at *
  generalize significand n s = c at *
  have hs := Nat.two_pow_pos s
  have hM := Nat.two_pow_pos f.mantissaWidth
  rw [Nat.add_sub_cancel] at hle
  rw [carry, Nat.log2_eq_iff (Nat.mul_ne_zero (by omega) hs.ne')]
  split
  next hc =>
    rw [hc, ← Nat.pow_add]
    exact ⟨Nat.pow_le_pow_right (by decide) (by omega), Nat.pow_lt_pow_right (by decide) (by omega)⟩
  next hc =>
    rw [Nat.add_zero, Nat.pow_add, show f.mantissaWidth + s + 1 = f.mantissaWidth + 1 + s by omega,
      Nat.pow_add]
    exact ⟨Nat.mul_le_mul_right _ hle, Nat.mul_lt_mul_of_pos_right (by omega) hs⟩

/-- The biased exponent of the nearest number. -/
def exponentOf (f : Format) (n : Nat) : Nat := f.bias + (nearestEven (f.mantissaWidth + 1) n).log2

/-- The bits that are stored in the mantissa. -/
def mantissaOf (f : Format) (n : Nat) : Nat :=
  if n < 2 ^ (f.mantissaWidth + 1) then n * 2 ^ (f.mantissaWidth - n.log2)
  else if exponentOf f n % 2 ^ f.exponentWidth = 2 ^ f.exponentWidth - 1 then 0
  else significand n (discarded (f.mantissaWidth + 1) n)

/-- A pattern of the low bits. -/
def encoded (f : Format) (negative : Bool) (exponent mantissa : Nat) : FloatPackedFormat f :=
  ⟨BitVec.ofNat _ mantissa, BitVec.ofNat _ exponent, if negative then 1 else 0⟩

theorem inRange_const_of_le {m n : Nat} (h : m ≤ n) : InRange (IntValue.const n).type m := by
  have hrange := (IntValue.holds_const (n : Int)).inRange
  have hunsigned : ∃ w, (IntValue.const n).type = .unsigned w := by
    show ∃ w, inferIntLiteralType none n = .unsigned w
    rw [inferIntLiteralType]
    split
    · exact ⟨1, rfl⟩
    · rw [if_neg (by omega)]
      exact ⟨_, rfl⟩
  obtain ⟨w, hw⟩ := hunsigned
  rw [hw] at hrange ⊢
  exact ⟨hrange.1, Int.natCast_nonneg m, Int.lt_of_le_of_lt (by exact_mod_cast h) hrange.2.2⟩

theorem mantissaWidth_type_lt (f : Format) : widthOf (IntValue.const f.mantissaWidth).type < 20 := by
  have hlt := f.fractionBit_lt
  have hisInt := IntValue.const_isIntType f.mantissaWidth
  have hbias := IntValue.const_isIntType f.bias
  generalize (IntValue.const f.mantissaWidth).type = a at hlt hisInt ⊢
  generalize (IntValue.const f.bias).type = b at hlt hbias
  cases hisInt <;> cases hbias <;>
    · simp only [tSub, tAdd, widthOf] at hlt ⊢
      omega

theorem indexType_lt (t : IndexedType) : widthOf (indexType (widthOf t.type).toNat) < 20 := by
  have hlt := t.index_lt
  have hone : (IntValue.const 1).type = .unsigned 1 := by decide
  rw [hone] at hlt
  simp only [indexType, tSub, widthOf] at hlt ⊢
  omega

theorem Integer.natAbs_lt (n : Integer t) : n.value.natAbs < 2 ^ (widthOf t.type).toNat := by
  have hrange := n.inRange
  have hint := t.isIntType
  generalize t.type = ty at hrange hint ⊢
  zify
  cases hint with
  | unsigned w =>
      rw [abs_of_nonneg hrange.2.1]
      exact hrange.2.2
  | signed w =>
      obtain ⟨hpos, hlow, hhigh⟩ := hrange
      have hw : (2 : Int) ^ w.toNat = 2 * 2 ^ (w - 1).toNat := by
        rw [show w.toNat = (w - 1).toNat + 1 by omega]
        ring
      show |n.value| < 2 ^ w.toNat
      have hpow := two_pow_pos (w - 1).toNat
      rw [hw, abs_lt]
      constructor
      · omega
      · omega

/-- `int_to_float` returns the pattern of the sign, the exponent and the mantissa. -/
theorem intToFloat_eq (f : Format) (n : Integer t) :
    intToFloat f ⟨t.type, n.value⟩ = .ok ⟨patternType f,
      (if n.value = 0 then encoded f false 0 0
        else encoded f (decide (n.value < 0)) (exponentOf f n.value.natAbs)
          (mantissaOf f n.value.natAbs)).pattern⟩ := by
  have hlt := n.natAbs_lt
  have hwidth : 0 < (widthOf t.type).toNat := by
    have hpos := t.width_pos
    omega
  have hwidth' : widthOf t.type = ((widthOf t.type).toNat : Int) := by
    have hpos := t.width_pos
    omega
  have hinput : IntValue.Holds ⟨t.type, n.value⟩ n.value := ⟨t.isIntType, n.inRange, rfl⟩
  generalize hw : (widthOf t.type).toNat = w at *
  have hinteger : ((if decide (n.value < 0) then IntValue.neg ⟨t.type, n.value⟩
      else ⟨t.type, n.value⟩).cast (.unsigned w)).Holds n.value.natAbs := by
    have hrange : InRange (.unsigned w) n.value.natAbs := IntValue.inRange_natCast hwidth hlt
    by_cases hneg : n.value < 0
    · rw [decide_eq_true hneg, if_pos rfl]
      rw [show ((n.value.natAbs : Nat) : Int) = -n.value by omega] at hrange ⊢
      exact hinput.neg.cast (.unsigned _) hrange
    · rw [decide_eq_false hneg, if_neg Bool.false_ne_true]
      rw [show ((n.value.natAbs : Nat) : Int) = n.value by omega] at hrange ⊢
      exact hinput.cast (.unsigned _) hrange
  have hsign : ∀ e m, IntValue.Holds ⟨.unsigned 1, if decide (n.value < 0) then 1 else 0⟩
      (encoded f (decide (n.value < 0)) e m).sign.toNat := by
    intro e m
    rw [encoded]
    cases decide (n.value < 0) with
    | true => exact IntValue.holds_natCast Nat.one_pos (n := 1) (by decide)
    | false => exact IntValue.holds_natCast Nat.one_pos (n := 0) (by decide)
  have hindex := indexType_lt t
  have hindex1 := t.index_lt
  rw [hw] at hindex hindex1
  have hfields : ∀ {exponent mantissa : IntValue} {e m : Nat},
      exponent.Holds (e % 2 ^ f.exponentWidth : Nat) →
      mantissa.Holds (m % 2 ^ f.mantissaWidth : Nat) →
      assemble f ⟨.unsigned 1, if decide (n.value < 0) then 1 else 0⟩ exponent mantissa =
        ⟨patternType f, (encoded f (decide (n.value < 0)) e m).pattern⟩ := by
    intro exponent mantissa e m he hm
    apply assemble_eq _ (hsign e m)
    · rw [encoded, BitVec.toNat_ofNat]
      exact he
    · rw [encoded, BitVec.toNat_ofNat]
      exact hm
  rw [intToFloat]
  dsimp only
  rw [hwidth']
  rcases highestOneOf_eq hinteger rfl hlt with ⟨h0, hnone⟩ | ⟨h0, ndx, hsome, hndxType, hndx⟩
  · rw [hnone, if_pos (Int.natAbs_eq_zero.mp h0)]
    show Except.ok _ = _
    rw [encoded, FloatPackedFormat.pattern]
    simp
  rw [hsome, if_neg fun h => h0 (Int.natAbs_eq_zero.mpr h)]
  dsimp only
  rw [hndx.value_eq]
  generalize hn : n.value.natAbs = a at *
  by_cases hlarge : (a.log2 : Int) > f.mantissaWidth
  · -- More bits than the mantissa
    rw [if_pos hlarge]
    have hlog : f.mantissaWidth + 1 ≤ a.log2 := by omega
    have hle : 2 ^ (f.mantissaWidth + 1) ≤ a := (Nat.le_log2 h0).mp hlog
    have hs : a.log2 - f.mantissaWidth = discarded (f.mantissaWidth + 1) a := by
      rw [discarded]
      omega
    have hs0 : 0 < discarded (f.mantissaWidth + 1) a := by omega
    have hsub : unsignedSub ndx (.const f.mantissaWidth) =
        .ok ((ndx.sub (.const f.mantissaWidth)).cast ndx.type) := by
      rw [unsignedSub, hndx.value_eq]
      have hassert : (IntValue.const f.mantissaWidth).value ≤ (a.log2 : Int) := by
        show (f.mantissaWidth : Int) ≤ _
        omega
      rw [decide_eq_true hassert]
      rfl
    have hshift : ((ndx.sub (.const f.mantissaWidth)).cast ndx.type).Holds
        (discarded (f.mantissaWidth + 1) a) := by
      have hdiff := hndx.sub (IntValue.holds_const f.mantissaWidth)
      rw [show (a.log2 : Int) - f.mantissaWidth = discarded (f.mantissaWidth + 1) a by omega]
        at hdiff
      apply hdiff.cast hndx.isIntType
      rw [hndxType]
      apply inRange_indexType (Int.natCast_nonneg _)
      have hlogw := (Nat.log2_lt h0).mpr hlt
      omega
    obtain ⟨hlow, hhigh⟩ := discarded_bounds h0 hs0 (Nat.succ_pos _)
    obtain ⟨hexponent, hmantissa⟩ := holds_roundIntegral hinteger hshift hs0
      (by rw [← hndxType] at hindex; exact hindex) (by rw [← hndxType] at hindex1; exact hindex1)
      hlow hhigh
    rw [hsub, ok_bind]
    have hcarry : exponentOf f a = f.bias + f.mantissaWidth + discarded (f.mantissaWidth + 1) a +
        carry f (significand a (discarded (f.mantissaWidth + 1) a)) := by
      rw [exponentOf, log2_nearestEven hle]
      omega
    rw [← hcarry] at hexponent hmantissa
    rw [mantissaOf, if_neg (not_lt.mpr hle)]
    exact congrArg Except.ok (hfields hexponent hmantissa)
  · rw [if_neg hlarge]
    have hlog : a.log2 ≤ f.mantissaWidth := by omega
    have hsmall : a < 2 ^ (f.mantissaWidth + 1) := by
      rw [← Nat.log2_lt h0]
      omega
    have hsub : unsignedSub (.const f.mantissaWidth) ndx =
        .ok (((IntValue.const f.mantissaWidth).sub ndx).cast
          (IntValue.const f.mantissaWidth).type) := by
      rw [unsignedSub, hndx.value_eq]
      have hassert : (a.log2 : Int) ≤ (IntValue.const f.mantissaWidth).value := by
        show _ ≤ (f.mantissaWidth : Int)
        omega
      rw [decide_eq_true hassert]
      rfl
    have hshift : (((IntValue.const f.mantissaWidth).sub ndx).cast
        (IntValue.const f.mantissaWidth).type).Holds (f.mantissaWidth - a.log2 : Nat) := by
      have hdiff := (IntValue.holds_const f.mantissaWidth).sub hndx
      rw [show (f.mantissaWidth : Int) - a.log2 = (f.mantissaWidth - a.log2 : Nat) by omega] at hdiff
      exact hdiff.cast (IntValue.const_isIntType _) (inRange_const_of_le (Nat.sub_le _ _))
    have hmantissa := hinteger.shiftLeftBy hshift (Int.natCast_nonneg _) (mantissaWidth_type_lt f)
    rw [Int.toNat_natCast] at hmantissa
    have hexponent := (IntValue.holds_const (f.bias + f.mantissaWidth : Nat)).sub hshift
    have hnearest : nearestEven (f.mantissaWidth + 1) a = a := by
      apply nearestEven_of_discarded_eq_zero
      rw [discarded]
      omega
    have hE : ((f.bias + f.mantissaWidth : Nat) : Int) - (f.mantissaWidth - a.log2 : Nat) =
        exponentOf f a := by
      rw [exponentOf, hnearest]
      omega
    rw [hE] at hexponent
    rw [hsub, ok_bind, mantissaOf, if_pos hsmall]
    apply congrArg Except.ok
    apply hfields (hexponent.cast_unsigned (FloatPackedFormat.exponentWidth_pos f))
    apply IntValue.Holds.cast_unsigned f.mantissaWidth_pos
    exact_mod_cast hmantissa

/-! ## The nearest number -/

open FloatPackedFormat

/-- The pattern is the number nearest to an integer, or the infinity of its sign if that is beyond
    the largest finite number. -/
def IsFloatOf (f : Format) (n : Int) (y : FloatPackedFormat f) : Prop :=
  if nearestEven (f.mantissaWidth + 1) n.natAbs < 2 ^ (2 ^ f.exponentWidth - 1 - f.bias) then
    (getSpecialCases .on y).finite = true ∧
      y.value .on = if n < 0 then -(nearestEven (f.mantissaWidth + 1) n.natAbs : ℚ)
        else nearestEven (f.mantissaWidth + 1) n.natAbs
  else (getSpecialCases .on y).inf = true ∧ y.sign = if n < 0 then 1 else 0

/-- `int_to_float` returns that pattern. -/
def IntToFloatExact (f : Format) (n : Integer t) : Prop :=
  ∃ y : FloatPackedFormat f,
    intToFloat f ⟨t.type, n.value⟩ = .ok ⟨patternType f, y.pattern⟩ ∧ IsFloatOf f n.value y

/-- The exponent of the nearest number, cut off, is right, or happens to be that of the
    infinities, with the bits of the mantissa zero. -/
def ExponentFits (f : Format) (n : Nat) : Prop :=
  nearestEven (f.mantissaWidth + 1) n < 2 ^ (2 ^ f.exponentWidth - 1 - f.bias) ∨
    ((f.bias + (nearestEven (f.mantissaWidth + 1) n).log2) % 2 ^ f.exponentWidth =
        2 ^ f.exponentWidth - 1 ∧
      (2 ^ (f.mantissaWidth + 1) ≤ n ∨ n = 2 ^ n.log2))

theorem encoded_mantissa (f : Format) (negative : Bool) (e m : Nat) :
    (encoded f negative e m).mantissa.toNat = m % 2 ^ f.mantissaWidth := BitVec.toNat_ofNat ..

theorem encoded_exponent (f : Format) (negative : Bool) (e m : Nat) :
    (encoded f negative e m).exponent.toNat = e % 2 ^ f.exponentWidth := BitVec.toNat_ofNat ..

theorem nearestEven_ne_zero {n : Nat} (hn : n ≠ 0) :
    nearestEven (f.mantissaWidth + 1) n ≠ 0 := by
  rcases Nat.lt_or_ge n (2 ^ (f.mantissaWidth + 1)) with h | h
  · rw [nearestEven_of_discarded_eq_zero]
    · exact hn
    · rw [← Nat.log2_lt hn] at h
      rw [discarded]
      omega
  · intro h0
    have hlog := log2_nearestEven h
    have hle := (Nat.le_log2 hn).mpr h
    rw [h0, Nat.log2_zero, discarded] at hlog
    omega

theorem nearestEven_lt_iff {n : Nat} (hn : n ≠ 0) :
    nearestEven (f.mantissaWidth + 1) n < 2 ^ (2 ^ f.exponentWidth - 1 - f.bias) ↔
      exponentOf f n + 1 < 2 ^ f.exponentWidth := by
  have hbias := f.bias_lt
  rw [← Nat.log2_lt (nearestEven_ne_zero hn), exponentOf]
  omega

/-- The significand of the nearest number, of exactly as many bits as the mantissa and the leading
    one have. -/
theorem mantissaOf_eq {n : Nat} (hn : n ≠ 0) (hE : exponentOf f n + 1 < 2 ^ f.exponentWidth) :
    ((2 ^ f.mantissaWidth + mantissaOf f n % 2 ^ f.mantissaWidth : Nat) : ℚ) *
      2 ^ (exponentOf f n - f.bias - f.mantissaWidth : ℤ) =
        nearestEven (f.mantissaWidth + 1) n := by
  have hM := Nat.two_pow_pos f.mantissaWidth
  have hdouble : 2 ^ (f.mantissaWidth + 1) = 2 ^ f.mantissaWidth * 2 := Nat.pow_succ ..
  -- A significand with a leading one
  have hlead : ∀ c, 2 ^ f.mantissaWidth ≤ c → c < 2 ^ (f.mantissaWidth + 1) →
      2 ^ f.mantissaWidth + c % 2 ^ f.mantissaWidth = c := by
    intro c hle hlt
    rw [Nat.mod_eq_sub_mod hle, Nat.mod_eq_of_lt (by omega)]
    omega
  rcases Nat.lt_or_ge n (2 ^ (f.mantissaWidth + 1)) with hsmall | hlarge
  · have hlog : n.log2 ≤ f.mantissaWidth := by
      rw [← Nat.log2_lt hn] at hsmall
      omega
    have hnearest : nearestEven (f.mantissaWidth + 1) n = n := by
      apply nearestEven_of_discarded_eq_zero
      rw [discarded]
      omega
    obtain ⟨d, hd⟩ := Nat.exists_eq_add_of_le hlog
    have hle : 2 ^ f.mantissaWidth ≤ n * 2 ^ d := by
      rw [hd, Nat.pow_add]
      exact Nat.mul_le_mul_right _ (Nat.log2_self_le hn)
    have hlt : n * 2 ^ d < 2 ^ (f.mantissaWidth + 1) := by
      rw [show f.mantissaWidth + 1 = n.log2 + 1 + d by omega, Nat.pow_add]
      exact Nat.mul_lt_mul_of_pos_right Nat.lt_log2_self (Nat.two_pow_pos d)
    have hmantissa : mantissaOf f n = n * 2 ^ d := by
      rw [mantissaOf, if_pos hsmall, hd, Nat.add_sub_cancel_left]
    have hexp : (exponentOf f n - f.bias - f.mantissaWidth : ℤ) = -(d : ℤ) := by
      rw [exponentOf, hnearest]
      omega
    rw [hmantissa, hlead _ hle hlt, hexp, hnearest, zpow_neg, zpow_natCast, Nat.cast_mul,
      Nat.cast_pow, Nat.cast_ofNat, ← div_eq_mul_inv]
    exact mul_div_cancel_right₀ _ (by positivity)
  · have hlog := log2_nearestEven hlarge
    have hpos : 0 < discarded (f.mantissaWidth + 1) n := by
      have hle := (Nat.le_log2 hn).mpr hlarge
      rw [discarded]
      omega
    obtain ⟨hlow, hhigh⟩ := discarded_bounds hn hpos (Nat.succ_pos _)
    obtain ⟨hle, hge⟩ := significand_bounds hlow hhigh
    have hmantissa : mantissaOf f n = significand n (discarded (f.mantissaWidth + 1) n) := by
      rw [mantissaOf, if_neg (not_lt.mpr hlarge), if_neg]
      rw [Nat.mod_eq_of_lt (by omega)]
      omega
    have hexp : (exponentOf f n - f.bias - f.mantissaWidth : ℤ) =
        ((discarded (f.mantissaWidth + 1) n +
          carry f (significand n (discarded (f.mantissaWidth + 1) n)) : Nat) : ℤ) := by
      rw [exponentOf, hlog]
      omega
    rw [hmantissa, hexp, zpow_natCast, nearestEven]
    generalize discarded (f.mantissaWidth + 1) n = s at *
    generalize significand n s = c at *
    rw [carry]
    by_cases hc : c = 2 ^ (f.mantissaWidth + 1)
    · rw [if_pos hc, hc, hdouble, Nat.mul_mod_right]
      push_cast
      ring
    · rw [if_neg hc, hlead c hle (by omega)]
      push_cast
      ring

theorem isFloatOf_encoded_iff {n : Int} (hn : n ≠ 0) :
    IsFloatOf f n (encoded f (decide (n < 0)) (exponentOf f n.natAbs) (mantissaOf f n.natAbs)) ↔
      ExponentFits f n.natAbs := by
  have hn' : n.natAbs ≠ 0 := Int.natAbs_ne_zero.mpr hn
  have hsign : ∀ e m, (encoded f (decide (n < 0)) e m).sign = if n < 0 then 1 else 0 := by
    intro e m
    rw [encoded]
    by_cases h : n < 0
    · rw [decide_eq_true h, if_pos h]
      rfl
    · rw [decide_eq_false h, if_neg h]
      rfl
  rw [IsFloatOf, ExponentFits]
  generalize n.natAbs = a at *
  by_cases hlt : nearestEven (f.mantissaWidth + 1) a < 2 ^ (2 ^ f.exponentWidth - 1 - f.bias)
  · rw [if_pos hlt]
    have hE := (nearestEven_lt_iff hn').mp hlt
    have hmod : exponentOf f a % 2 ^ f.exponentWidth = exponentOf f a := Nat.mod_eq_of_lt (by omega)
    refine ⟨fun _ => .inl hlt, fun _ => ⟨?_, ?_⟩⟩
    · rw [finite_iff, encoded_exponent, hmod]
      exact hE
    · have hmagnitude : (encoded f (decide (n < 0)) (exponentOf f a) (mantissaOf f a)).magnitude .on =
          nearestEven (f.mantissaWidth + 1) a := by
        have hbias := f.bias_pos
        rw [magnitude_of_pos, FloatPackedFormat.significand, encoded_exponent, encoded_mantissa, hmod,
          mantissaOf_eq hn' hE]
        rw [encoded_exponent, hmod, exponentOf]
        omega
      rw [value, hmagnitude, hsign]
      by_cases h : n < 0
      · rw [if_pos h, if_pos h, if_neg (by decide)]
      · rw [if_neg h, if_neg h, if_pos rfl]
  · rw [if_neg hlt, inf_iff, encoded_exponent, encoded_mantissa, ← exponentOf]
    have hM := Nat.two_pow_pos f.mantissaWidth
    constructor
    · rintro ⟨⟨hE, hm⟩, -⟩
      refine .inr ⟨hE, ?_⟩
      rcases Nat.lt_or_ge a (2 ^ (f.mantissaWidth + 1)) with hsmall | hlarge
      · right
        rw [mantissaOf, if_pos hsmall] at hm
        rw [← Nat.log2_lt hn'] at hsmall
        obtain ⟨d, hd⟩ := Nat.exists_eq_add_of_le (show a.log2 ≤ f.mantissaWidth by omega)
        rw [hd, Nat.add_sub_cancel_left, Nat.pow_add, Nat.mul_mod_mul_right] at hm
        have hlow := Nat.log2_self_le hn'
        have hhigh := Nat.lt_log2_self (n := a)
        have hmod : a % 2 ^ a.log2 = 0 := by
          rcases Nat.mul_eq_zero.mp hm with h | h
          · exact h
          · have hpow := Nat.two_pow_pos d
            omega
        rw [Nat.pow_succ] at hhigh
        rw [Nat.mod_eq_sub_mod hlow, Nat.mod_eq_of_lt (by omega)] at hmod
        omega
      · exact .inl hlarge
    · rintro (h | ⟨hE, hcase⟩)
      · exact absurd h hlt
      refine ⟨⟨hE, ?_⟩, hsign _ _⟩
      by_cases hsmall : a < 2 ^ (f.mantissaWidth + 1)
      · have hpow := hcase.resolve_left (not_le.mpr hsmall)
        rw [mantissaOf, if_pos hsmall]
        rw [← Nat.log2_lt hn'] at hsmall
        generalize a.log2 = h at hpow hsmall
        rw [hpow, ← Nat.pow_add, show h + (f.mantissaWidth - h) = f.mantissaWidth by omega,
          Nat.mod_self]
      · rw [mantissaOf, if_neg hsmall, if_pos hE, Nat.zero_mod]

/-- `int_to_float` returns the nearest number, or infinity, if and only if the exponent fits. -/
theorem intToFloatExact_iff (f : Format) (n : Integer t) :
    IntToFloatExact f n ↔ ExponentFits f n.value.natAbs := by
  rw [IntToFloatExact, intToFloat_eq]
  have hexists : ∀ z : FloatPackedFormat f, (∃ y : FloatPackedFormat f,
      (Except.ok ⟨patternType f, z.pattern⟩ : Except Failure IntValue) =
        .ok ⟨patternType f, y.pattern⟩ ∧ IsFloatOf f n.value y) ↔ IsFloatOf f n.value z := by
    intro z
    constructor
    · rintro ⟨y, heq, hy⟩
      have hpattern : (z.pattern : Int) = y.pattern :=
        congrArg IntValue.value (Except.ok.inj heq)
      rw [pattern_injective (Int.natCast_inj.mp hpattern)]
      exact hy
    · intro hz
      exact ⟨z, rfl, hz⟩
  rw [hexists]
  by_cases h0 : n.value = 0
  · rw [if_pos h0, h0]
    have hzero : nearestEven (f.mantissaWidth + 1) 0 = 0 := by
      apply nearestEven_of_discarded_eq_zero
      rw [discarded, Nat.log2_zero]
      omega
    have hlt : nearestEven (f.mantissaWidth + 1) (Int.natAbs 0) <
        2 ^ (2 ^ f.exponentWidth - 1 - f.bias) := by
      rw [Int.natAbs_zero, hzero]
      exact Nat.two_pow_pos _
    have hbias := f.bias_lt
    refine ⟨fun _ => .inl hlt, fun _ => ?_⟩
    rw [IsFloatOf, if_pos hlt, finite_iff, encoded_exponent, Nat.zero_mod, Int.natAbs_zero, hzero]
    refine ⟨by omega, ?_⟩
    have hexponent : (encoded f false 0 0).exponent = 0 := rfl
    have hmantissa : (encoded f false 0 0).mantissa.toNat = 0 := rfl
    rw [value, magnitude, if_pos hexponent, hmantissa]
    norm_num [encoded]
  · rw [if_neg h0]
    exact isFloatOf_encoded_iff h0

end Kanagawa.Library
