/-
  Kanagawa.Arith.Exact

  When the reference arithmetic is exact.

  `exactBinaryOp` and `exactUnaryOp` state the operators on the integers that
  literals denote.  The code agrees with them, modulo two to the destination
  width, except on two kinds of input: bit indices that `bit_test` and
  `bit_set` refuse, and `EQ`/`NE` on a negative and a non-negative source whose
  patterns coincide once both are widened to the larger width.
-/
import Kanagawa.Arith.Literal
import Kanagawa.Lib.Bits
import Kanagawa.Lib.Except

namespace Kanagawa

open Lib.Bits

/-! ## What literals and operators denote -/

/-- The sign bit is set and is taken as one. -/
def Literal.negative (l : Literal) (signed : Bool) : Bool :=
  signed && l.value.testBit (l.width - 1)

/-- The integer a literal stands for: two's complement when `signed`. -/
def Literal.denote (l : Literal) (signed : Bool) : Int :=
  if l.negative signed then (l.value : Int) - 2 ^ l.width else l.value

/-- The unary operators on integers.  The logical inversion only ever sees
    one-bit values, where it is the bitwise one. -/
def exactUnaryOp : UnaryOpType → Int → Int
  | .invert, a | .logicalInvert, a => Int.lnot a
  | .negate, a => -a

/-- The binary operators on integers.  The logical operators only ever see
    one-bit values, where they are the bitwise ones. -/
def exactBinaryOp : BinaryOpType → Int → Int → Int
  | .add, a, b => a + b
  | .sub, a, b => a - b
  | .mul, a, b | .lutMul, a, b => a * b
  | .div, a, b => Int.tdiv a b
  | .mod, a, b => Int.tmod a b
  | .and, a, b | .logicalAnd, a, b => Int.land a b
  | .or, a, b | .logicalOr, a, b => Int.lor a b
  | .xor, a, b | .logicalXor, a, b => Int.xor a b
  | .shl, a, b => a * 2 ^ b.toNat
  | .shr, a, b => a / 2 ^ b.toNat
  | .eq, a, b => if a = b then 1 else 0
  | .ne, a, b => if a ≠ b then 1 else 0
  | .gt, a, b => if a > b then 1 else 0
  | .ge, a, b => if a ≥ b then 1 else 0
  | .lt, a, b => if a < b then 1 else 0
  | .le, a, b => if a ≤ b then 1 else 0

/-- The right operands an operator is defined on: a positive divisor, a shift
    amount that is not negative. -/
def BinaryOpType.Defined : BinaryOpType → Int → Prop
  | .div, b | .mod, b => 0 < b
  | .shl, b | .shr, b => 0 ≤ b
  | _, _ => True

/-! ## Truncation -/

theorem truncate_eq (x : Int) (n : Nat) : truncate x n = (x % 2 ^ n).toNat := by
  rw [truncate, land_two_pow_sub_one]

/-- Truncation only sees the residue. -/
theorem truncate_eq_of_modEq {x y : Int} {n : Nat} (h : x ≡ y [ZMOD 2 ^ n]) :
    truncate x n = (y % 2 ^ n).toNat := by
  rw [truncate_eq, h]

/-- Two truncations agree exactly when the arguments are congruent. -/
theorem truncate_eq_iff {x y : Int} {n : Nat} :
    truncate x n = (y % 2 ^ n).toNat ↔ x ≡ y [ZMOD 2 ^ n] := by
  have hp : (2 : Int) ^ n ≠ 0 := pow_ne_zero n (by decide)
  rw [truncate_eq]
  constructor
  · intro h
    have h' := congrArg Int.ofNat h
    simp only [Int.ofNat_eq_natCast, Int.toNat_of_nonneg (Int.emod_nonneg _ hp)] at h'
    exact h'
  · intro h
    rw [h]

theorem truncate_natCast_of_lt {x n : Nat} (h : x < 2 ^ n) : truncate x n = x := by
  rw [truncate_eq, Int.emod_eq_of_lt (by omega) (by exact_mod_cast h), Int.toNat_natCast]

theorem truncate_natCast (x n : Nat) : truncate x n = x % 2 ^ n := by
  rw [truncate_eq]
  exact_mod_cast Int.toNat_natCast (x % 2 ^ n)

theorem truncate_lt (x : Int) (n : Nat) : truncate x n < 2 ^ n := by
  rw [truncate_eq]
  have hpos : (0 : Int) < 2 ^ n := by positivity
  have hlt := Int.emod_lt_of_pos x hpos
  have hnonneg := Int.emod_nonneg x hpos.ne'
  zify
  rwa [Int.toNat_of_nonneg hnonneg]

/-! ## Setting and flipping bits -/

/-- `bit_set` and `bit_test` take the indices below this one. -/
theorem le_uint32Max_iff {i : Nat} : i ≤ uint32Max ↔ i < 2 ^ 32 := by
  simp only [uint32Max]; omega

/-- Setting the bits from `a` up to `a + n` of a pattern of `a` bits. -/
theorem foldlM_bitSet (n : Nat) : ∀ (a v : Nat), v < 2 ^ a → n = 0 ∨ a + n ≤ 2 ^ 32 →
    (List.range' a n).foldlM bitSet v = .ok (v + (2 ^ (a + n) - 2 ^ a)) := by
  induction n with
  | zero => intro a v _ _; simp [pure, Except.pure]
  | succ n ih =>
      intro a v hv hn
      have hv' : v + 2 ^ a < 2 ^ (a + 1) := by rw [Nat.pow_succ]; omega
      have hle : 2 ^ (a + 1) ≤ 2 ^ (a + 1 + n) := Nat.pow_le_pow_right (by decide) (by omega)
      have hset : bitSet v a = .ok (v + 2 ^ a) := by
        rw [bitSet, if_pos (le_uint32Max_iff.mpr (by omega)), Nat.or_two_pow_eq_add_of_lt hv]
      rw [List.range'_succ, List.foldlM_cons, hset]
      show (List.range' (a + 1) n).foldlM bitSet (v + 2 ^ a) = _
      rw [ih (a + 1) _ hv' (by omega)]
      congr 1
      rw [show a + (n + 1) = a + 1 + n by omega]
      rw [Nat.pow_succ] at hle hv' ⊢
      omega

/-- Setting bits stops at the first index that does not fit 32 bits. -/
theorem foldlM_bitSet_error (n : Nat) : ∀ (a v : Nat), n ≠ 0 → 2 ^ 32 < a + n →
    (List.range' a n).foldlM bitSet v = .error .assertion := by
  induction n with
  | zero => intro a v h _; exact absurd rfl h
  | succ n ih =>
      intro a v _ hn
      rw [List.range'_succ, List.foldlM_cons]
      by_cases ha : a ≤ uint32Max
      · rw [bitSet, if_pos ha]
        have ha' := le_uint32Max_iff.mp ha
        exact ih (a + 1) _ (by omega) (by omega)
      · rw [bitSet, if_neg ha]
        rfl

/-- Flipping the low `n` bits of `src`, for indices that fit. -/
theorem flipBits_eq (src : Nat) (n : Nat) (hn : n ≤ 2 ^ 32) :
    flipBits src n = .ok (2 ^ n - 1 - src % 2 ^ n) := by
  induction n with
  | zero => simp [flipBits, Nat.mod_one, pure, Except.pure]
  | succ n ih =>
      have ih' := ih (by omega)
      rw [flipBits] at ih' ⊢
      rw [List.range_succ, List.foldlM_append, ih']
      have hmod : src % 2 ^ (n + 1) = src % 2 ^ n + 2 ^ n * (src.testBit n).toNat := by
        rw [Nat.mod_pow_succ, Nat.toNat_testBit]
      have hlt := Nat.mod_lt src (Nat.two_pow_pos n)
      have hidx : n ≤ uint32Max := le_uint32Max_iff.mpr (by omega)
      simp only [List.foldlM_cons, List.foldlM_nil, bitTest, bitSet, if_pos hidx, bind,
        Except.bind, pure, Except.pure]
      rw [Nat.pow_succ] at hmod ⊢
      cases hb : src.testBit n
      · simp only [hb, Bool.toNat_false, Nat.mul_zero, Nat.add_zero] at hmod
        simp only [Bool.not_false, if_true]
        rw [Nat.or_two_pow_eq_add_of_lt (by omega), hmod]
        congr 1
        omega
      · simp only [hb, Bool.toNat_true, Nat.mul_one] at hmod
        simp only [Bool.not_true, Bool.false_eq_true, if_false, hmod]
        congr 1
        omega

/-- Flipping more bits than can be indexed fails. -/
theorem flipBits_error (src : Nat) {n : Nat} (hn : 2 ^ 32 < n) :
    flipBits src n = .error .assertion := by
  obtain ⟨k, rfl⟩ := Nat.exists_eq_add_of_lt hn
  have hrange : List.range (2 ^ 32 + k + 1)
      = List.range (2 ^ 32) ++ (2 ^ 32 :: List.range' (2 ^ 32 + 1) k) := by
    rw [show 2 ^ 32 + k + 1 = 2 ^ 32 + (k + 1) by omega, List.range_add,
      List.range_eq_range' (n := k + 1), List.map_add_range', List.range'_succ, Nat.add_zero]
  have hlow := flipBits_eq src (2 ^ 32) (Nat.le_refl _)
  rw [flipBits] at hlow ⊢
  rw [hrange, List.foldlM_append, hlow]
  rfl

/-! ## Widening -/

/-- The sign bit of `l` can be tested and, when it is set, the literal can be
    extended to `dstWidth` bits. -/
def Literal.Widenable (l : Literal) (signed : Bool) (dstWidth : Nat) : Prop :=
  (signed = true → l.width ≤ 2 ^ 32) ∧ (l.negative signed = true → dstWidth ≤ 2 ^ 32)

/-- The pattern `widen` returns. -/
def Literal.widened (l : Literal) (signed : Bool) (dstWidth : Nat) : Nat :=
  if l.negative signed then l.value + (2 ^ max l.width dstWidth - 2 ^ l.width) else l.value

theorem Literal.negative_false (l : Literal) : l.negative false = false := rfl

theorem Literal.denote_of_negative {l : Literal} {s : Bool} (h : l.negative s = true) :
    l.denote s = (l.value : Int) - 2 ^ l.width := if_pos h

theorem Literal.denote_of_not_negative {l : Literal} {s : Bool} (h : l.negative s = false) :
    l.denote s = l.value := if_neg (by simp [h])

theorem Literal.widened_of_not_negative {l : Literal} {s : Bool} (h : l.negative s = false)
    (d : Nat) : l.widened s d = l.value := if_neg (by simp [h])

/-- A negative literal has its sign bit set. -/
theorem Literal.le_value_of_negative {l : Literal} {s : Bool} (h : l.negative s = true) :
    2 ^ (l.width - 1) ≤ l.value := by
  rw [Literal.negative, Bool.and_eq_true] at h
  exact Nat.ge_two_pow_of_testBit h.2

/-- A literal is negative exactly when the integer it denotes is. -/
theorem Literal.denote_neg_iff {l : Literal} (hl : l.WellFormed) (s : Bool) :
    l.denote s < 0 ↔ l.negative s = true := by
  cases h : l.negative s with
  | true =>
      have hfit : (l.value : Int) < 2 ^ l.width := by exact_mod_cast hl.fits
      simp only [Literal.denote_of_negative h, iff_true]
      omega
  | false =>
      simp only [Literal.denote_of_not_negative h, Bool.false_eq_true, iff_false]
      omega

/-- Widening a negative literal adds a power of two to what it denotes. -/
theorem Literal.widened_of_negative {l : Literal} {s : Bool} (h : l.negative s = true)
    (d : Nat) : (l.widened s d : Int) = l.denote s + 2 ^ max l.width d := by
  have hle : 2 ^ l.width ≤ 2 ^ max l.width d :=
    Nat.pow_le_pow_right (by decide) (Nat.le_max_left _ _)
  rw [Literal.widened, if_pos h, Literal.denote_of_negative h]
  push_cast [Nat.cast_sub hle]
  ring

/-- Widening keeps the denoted integer modulo two to the width extended to. -/
theorem Literal.widened_modEq (l : Literal) (s : Bool) (d : Nat) :
    (l.widened s d : Int) ≡ l.denote s [ZMOD 2 ^ d] := by
  cases h : l.negative s with
  | true =>
      rw [Literal.widened_of_negative h]
      have hdvd : (2 : Int) ^ d ∣ 2 ^ max l.width d := pow_dvd_pow 2 (Nat.le_max_right _ _)
      exact Int.modEq_iff_dvd.mpr (by simpa using (Int.dvd_neg).mpr hdvd)
  | false => rw [Literal.widened_of_not_negative h, Literal.denote_of_not_negative h]

theorem widen_eq {l : Literal} (hl : l.WellFormed) {s : Bool} {d : Nat}
    (hw : l.Widenable s d) : widen l s d = .ok (l.widened s d) := by
  have hpos := hl.width_pos
  cases s with
  | false => simp [widen, assert, hpos, Literal.widened, Literal.negative, bind, Except.bind, pure,
      Except.pure]
  | true =>
      have hidx : l.width - 1 ≤ uint32Max := le_uint32Max_iff.mpr (by have := hw.1 rfl; omega)
      cases hb : l.value.testBit (l.width - 1) with
      | false =>
          simp [widen, assert, hpos, Literal.widened, Literal.negative, bitTest, hidx, hb, bind,
            Except.bind, pure, Except.pure]
      | true =>
          have hneg : l.negative true = true := by simp [Literal.negative, hb]
          have hmax : l.width + (d - l.width) = max l.width d := by omega
          have hset := foldlM_bitSet (d - l.width) l.width l.value hl.fits
            (by have := hw.1 rfl; have := hw.2 hneg; omega)
          rw [hmax] at hset
          simp [widen, assert, hpos, Literal.widened, hneg, bitTest, hidx, hb, hset, bind,
            Except.bind]

theorem widen_error {l : Literal} (hl : l.WellFormed) {s : Bool} {d : Nat}
    (hw : ¬ l.Widenable s d) : widen l s d = .error .assertion := by
  have hpos := hl.width_pos
  cases s with
  | false => exact absurd ⟨nofun, nofun⟩ hw
  | true =>
      by_cases hidx : l.width - 1 ≤ uint32Max
      · have hwidth := le_uint32Max_iff.mp hidx
        cases hb : l.value.testBit (l.width - 1) with
        | false =>
            refine absurd ⟨fun _ => by omega, fun h => ?_⟩ hw
            simp [Literal.negative, hb] at h
        | true =>
            have hd : 2 ^ 32 < d := by
              by_contra hd
              exact hw ⟨fun _ => by omega, fun _ => by omega⟩
            have hset := foldlM_bitSet_error (d - l.width) l.width l.value (by omega) (by omega)
            simp [widen, assert, hpos, bitTest, hidx, hb, hset, bind, Except.bind]
      · simp [widen, assert, hpos, bitTest, hidx, bind, Except.bind]

/-! ## Unary operators -/

theorem lnot_eq (a : Int) : Int.lnot a = -a - 1 := by
  cases a with
  | ofNat n => simp only [Int.lnot, Int.negSucc_eq, Int.ofNat_eq_natCast]; ring
  | negSucc n => simp only [Int.lnot, Int.negSucc_eq]; ring

/-- The flipped pattern stands for the inverted integer at every narrower width. -/
theorem flipped_modEq {x n d : Nat} {a : Int} (hx : (x : Int) ≡ a [ZMOD 2 ^ n]) (hd : d ≤ n) :
    ((2 ^ n - 1 - x % 2 ^ n : Nat) : Int) ≡ -a - 1 [ZMOD 2 ^ d] := by
  have hlt := Nat.mod_lt x (Nat.two_pow_pos n)
  have hcast : ((2 ^ n - 1 - x % 2 ^ n : Nat) : Int) = 2 ^ n - 1 - (x : Int) % 2 ^ n := by
    rw [Nat.cast_sub (by omega), Nat.cast_sub Nat.one_le_two_pow]
    push_cast
    rfl
  have hflip : (2 : Int) ^ n - 1 - (x : Int) % 2 ^ n ≡ 0 - 1 - a [ZMOD 2 ^ n] :=
    (((Int.modEq_zero_iff_dvd.mpr (dvd_refl _)).sub_right 1).sub
      ((Int.mod_modEq _ _).trans hx))
  rw [hcast, show -a - 1 = 0 - 1 - a by ring]
  exact hflip.of_dvd (pow_dvd_pow 2 hd)

theorem implementUnaryOp_eq {l : Literal} (hl : l.WellFormed) (s : Bool) (type : UnaryOpType)
    {d : Nat} (hi : max l.width d < 2 ^ 32) :
    implementUnaryOp l s type d = .ok ((exactUnaryOp type (l.denote s) % 2 ^ d).toNat) := by
  have hwiden : l.Widenable s (max l.width d + 1) := ⟨fun _ => by omega, fun _ => by omega⟩
  have hflip := flipped_modEq (l.widened_modEq s (max l.width d + 1)) (d := d) (by omega)
  simp only [implementUnaryOp, widen_eq hl hwiden, flipBits_eq _ _ (show max l.width d + 1 ≤ 2 ^ 32
    by omega), bind, Except.bind, pure, Except.pure]
  congr 1
  cases type with
  | invert => exact truncate_eq_of_modEq (by rw [exactUnaryOp, lnot_eq]; exact hflip)
  | logicalInvert => exact truncate_eq_of_modEq (by rw [exactUnaryOp, lnot_eq]; exact hflip)
  | negate =>
      refine truncate_eq_of_modEq ?_
      rw [exactUnaryOp, show -l.denote s = -l.denote s - 1 + 1 by ring]
      push_cast
      exact hflip.add_right 1

theorem implementUnaryOp_error {l : Literal} (hl : l.WellFormed) (s : Bool) (type : UnaryOpType)
    {d : Nat} (hi : ¬ max l.width d < 2 ^ 32) :
    implementUnaryOp l s type d = .error .assertion := by
  by_cases hw : l.Widenable s (max l.width d + 1)
  · simp only [implementUnaryOp, widen_eq hl hw, flipBits_error _ (show 2 ^ 32 < max l.width d + 1
      by omega), bind, Except.bind]
  · simp only [implementUnaryOp, widen_error hl hw, bind, Except.bind]

/-- `ImplementUnaryOp` is exact iff every bit index it touches fits 32 bits. -/
theorem implementUnaryOp_exact_iff {l : Literal} (hl : l.WellFormed) (s : Bool)
    (type : UnaryOpType) (d : Nat) :
    implementUnaryOp l s type d = .ok ((exactUnaryOp type (l.denote s) % 2 ^ d).toNat) ↔
      max l.width d < 2 ^ 32 := by
  constructor
  · intro h
    by_contra hi
    rw [implementUnaryOp_error hl s type hi] at h
    exact nomatch h
  · exact implementUnaryOp_eq hl s type

/-- A negative literal is at least minus half its range. -/
theorem Literal.neg_two_pow_le_denote {l : Literal} (hl : l.WellFormed) (s : Bool) :
    -2 ^ (l.width - 1) ≤ l.denote s := by
  cases h : l.negative s with
  | true =>
      have hge : (2 : Int) ^ (l.width - 1) ≤ l.value := by
        exact_mod_cast Literal.le_value_of_negative h
      have hpow : (2 : Int) ^ l.width = 2 ^ (l.width - 1) * 2 := by
        rw [← pow_succ, Nat.sub_add_cancel hl.width_pos]
      rw [Literal.denote_of_negative h]
      omega
  | false =>
      rw [Literal.denote_of_not_negative h]
      have : (0 : Int) < 2 ^ (l.width - 1) := Int.pow_pos (by decide)
      omega

theorem absLiteral_eq {l : Literal} (hl : l.WellFormed) (hneg : l.negative true = true)
    (hi : l.width + 2 ≤ 2 ^ 32) : absLiteral l = .ok (-(l.denote true)).toNat := by
  have hbit : l.value.testBit (l.width - 1) = true := by simpa [Literal.negative] using hneg
  have hidx : l.width - 1 ≤ uint32Max := le_uint32Max_iff.mpr (by omega)
  have hlt : -(l.denote true) < 2 ^ (l.width + 1) := by
    have hge := Literal.neg_two_pow_le_denote hl true
    have hpow : (2 : Int) ^ (l.width - 1) < 2 ^ (l.width + 1) :=
      pow_lt_pow_right₀ (by decide) (by omega)
    omega
  have hnn : 0 ≤ -(l.denote true) := by
    have := (Literal.denote_neg_iff hl true).mpr hneg
    omega
  simp only [absLiteral, bitTest, if_pos hidx, hbit, bind, Except.bind, if_true]
  rw [implementUnaryOp_eq hl true .negate (by omega), exactUnaryOp, Int.emod_eq_of_lt hnn hlt]

theorem absLiteral_error {l : Literal} (hl : l.WellFormed) (hneg : l.negative true = true)
    (hi : ¬ l.width + 2 ≤ 2 ^ 32) : absLiteral l = .error .assertion := by
  have hbit : l.value.testBit (l.width - 1) = true := by simpa [Literal.negative] using hneg
  by_cases hidx : l.width - 1 ≤ uint32Max
  · simp only [absLiteral, bitTest, if_pos hidx, hbit, bind, Except.bind, if_true]
    exact implementUnaryOp_error hl true .negate (by omega)
  · simp only [absLiteral, bitTest, if_neg hidx, bind, Except.bind]

/-! ## Binary operators

The sources are widened first, and only then does the operator matter. -/

/-- The width the sources are meant to be extended to, without the wrap-around of
    `requiredSourceWidth`. -/
def sourceWidth (src0 src1 : Literal) (d : Nat) : BinaryOpType → Nat
  | .shr => d + src1.value
  | .eq | .ne | .gt | .ge | .lt | .le => max src0.width src1.width
  | _ => d

/-- The inputs on which `ImplementBinaryOp` is exact.  Every bit index it touches
    fits 32 bits, a shift amount fits `size_t`, and `EQ`/`NE` are not given two
    different integers that are congruent modulo two to the larger width. -/
def BinaryOpInRange (src0 src1 : Literal) (d : Nat) (s0 s1 : Bool) (type : BinaryOpType) : Prop :=
  src0.Widenable s0 (sourceWidth src0 src1 d type) ∧
  src1.Widenable s1 (sourceWidth src0 src1 d type) ∧
  match type with
  | .div => src0.negative s0 = true → src0.width + 2 ≤ 2 ^ 32 ∧ d < 2 ^ 32
  | .mod => src0.negative s0 = true →
      src0.width + 2 ≤ 2 ^ 32 ∧ src1.width < 2 ^ 32 ∧ d < 2 ^ 32
  | .shl | .shr => src1.value ≤ sizeMax
  | .eq | .ne => src0.denote s0 = src1.denote s1 ∨
      ¬ src0.denote s0 ≡ src1.denote s1 [ZMOD 2 ^ max src0.width src1.width]
  | _ => True

theorem sourcePositive_eq {l : Literal} {s : Bool} {d : Nat} (hl : l.WellFormed)
    (hw : l.Widenable s d) : sourcePositive l s = .ok (!l.negative s) := by
  cases s with
  | false => rfl
  | true =>
      have hidx : l.width - 1 ≤ uint32Max :=
        le_uint32Max_iff.mpr (by have := hw.1 rfl; have := hl.width_pos; omega)
      simp [sourcePositive, bitTest, hidx, Literal.negative, Functor.map, Except.map]

/-- With both sources widened, the operator is applied to the widened patterns. -/
theorem implementBinaryOp_of_widenable {src0 src1 : Literal} {d req : Nat} {s0 s1 : Bool}
    {type : BinaryOpType} (h0 : src0.WellFormed) (h1 : src1.WellFormed) (hd : 0 < d)
    (hreq : requiredSourceWidth src0 src1 d type = .ok req)
    (hw0 : src0.Widenable s0 req) (hw1 : src1.Widenable s1 req) :
    implementBinaryOp src0 src1 d s0 s1 type =
      (truncate · d) <$> binaryOpResult src0 src1 d (src0.widened s0 req) (src1.widened s1 req)
        (!src0.negative s0) (!src1.negative s1) type := by
  simp only [implementBinaryOp, assert, h0.width_pos, h1.width_pos, hd, decide_true, if_true, hreq,
    widen_eq h0 hw0, widen_eq h1 hw1, sourcePositive_eq h0 hw0, sourcePositive_eq h1 hw1, bind,
    Except.bind, pure, Except.pure, Functor.map, Except.map]

/-- A source that cannot be widened stops the computation. -/
theorem implementBinaryOp_of_not_widenable {src0 src1 : Literal} {d req : Nat} {s0 s1 : Bool}
    {type : BinaryOpType} (h0 : src0.WellFormed) (h1 : src1.WellFormed) (hd : 0 < d)
    (hreq : requiredSourceWidth src0 src1 d type = .ok req)
    (hw : ¬ (src0.Widenable s0 req ∧ src1.Widenable s1 req)) :
    implementBinaryOp src0 src1 d s0 s1 type = .error .assertion := by
  by_cases hw0 : src0.Widenable s0 req
  · have hw1 : ¬ src1.Widenable s1 req := fun h => hw ⟨hw0, h⟩
    simp only [implementBinaryOp, assert, h0.width_pos, h1.width_pos, hd, decide_true, if_true,
      hreq, widen_eq h0 hw0, widen_error h1 hw1, bind, Except.bind]
  · simp only [implementBinaryOp, assert, h0.width_pos, h1.width_pos, hd, decide_true, if_true,
      hreq, widen_error h0 hw0, bind, Except.bind]

/-- An exact result before truncation is an exact result. -/
theorem map_truncate_ok_iff {r : Int} {x : Int} {d : Nat} :
    (truncate · d) <$> (Except.ok r : Except Failure Int) = .ok ((x % 2 ^ d).toNat) ↔
      r ≡ x [ZMOD 2 ^ d] := by
  rw [← truncate_eq_iff]
  simp [Functor.map, Except.map]

/-! ### Sums, products and bitwise operators -/

section Congruence

variable {src0 src1 : Literal} {d x0 x1 : Nat} {p0 p1 : Bool} {a b : Int}

/-- Operators that respect congruence need no more than congruent sources. -/
theorem binaryOpResult_congr (h0 : (x0 : Int) ≡ a [ZMOD 2 ^ d]) (h1 : (x1 : Int) ≡ b [ZMOD 2 ^ d])
    {type : BinaryOpType}
    (htype : type ∈ [.add, .sub, .mul, .lutMul, .and, .logicalAnd, .or, .logicalOr, .xor,
      BinaryOpType.logicalXor]) :
    ∃ r, binaryOpResult src0 src1 d x0 x1 p0 p1 type = .ok r ∧
      r ≡ exactBinaryOp type a b [ZMOD 2 ^ d] := by
  have hand : ((x0 &&& x1 : Nat) : Int) ≡ Int.land a b [ZMOD 2 ^ d] := by
    have h := bitwise_modEq and d h0 h1
    rwa [Int.bitwise_and] at h
  have hor : ((x0 ||| x1 : Nat) : Int) ≡ Int.lor a b [ZMOD 2 ^ d] := by
    have h := bitwise_modEq or d h0 h1
    rwa [Int.bitwise_or] at h
  have hxor : ((x0 ^^^ x1 : Nat) : Int) ≡ Int.xor a b [ZMOD 2 ^ d] := by
    have h := bitwise_modEq xor d h0 h1
    rwa [Int.bitwise_xor] at h
  cases type with
  | add => exact ⟨_, rfl, h0.add h1⟩
  | sub => exact ⟨_, rfl, h0.sub h1⟩
  | mul => exact ⟨_, rfl, h0.mul h1⟩
  | lutMul => exact ⟨_, rfl, h0.mul h1⟩
  | and => exact ⟨_, rfl, hand⟩
  | logicalAnd => exact ⟨_, rfl, hand⟩
  | or => exact ⟨_, rfl, hor⟩
  | logicalOr => exact ⟨_, rfl, hor⟩
  | xor => exact ⟨_, rfl, hxor⟩
  | logicalXor => exact ⟨_, rfl, hxor⟩
  | _ => simp at htype

end Congruence

/-! ### Division and remainder -/

/-- Negating the magnitude of a quotient or remainder. -/
theorem implementUnaryOp_negate_nat {q w d : Nat} (hq : q < 2 ^ w) (hw : 0 < w)
    (hi : max w d < 2 ^ 32) :
    implementUnaryOp ⟨q, w⟩ false .negate d = .ok ((-(q : Int)) % 2 ^ d).toNat := by
  have hwf : (⟨q, w⟩ : Literal).WellFormed := ⟨hq, hw, by simp only [sizeMax]; omega⟩
  rw [implementUnaryOp_eq hwf false .negate hi]
  rfl

theorem toNat_emod_modEq (x : Int) (d : Nat) : ((x % 2 ^ d).toNat : Int) ≡ x [ZMOD 2 ^ d] := by
  rw [Int.toNat_of_nonneg (Int.emod_nonneg _ (pow_ne_zero d (by decide)))]
  exact Int.mod_modEq _ _

section Division

variable {src0 src1 : Literal} {d req : Nat} {s0 s1 : Bool}

/-- A right operand that is not negative is its own widened pattern. -/
theorem widened_of_nonneg (h1 : src1.WellFormed) (hb : 0 ≤ src1.denote s1) :
    src1.negative s1 = false ∧ src1.denote s1 = src1.value ∧
      ∀ req, src1.widened s1 req = src1.value := by
  have hneg : src1.negative s1 = false := by
    rw [← Bool.not_eq_true, ← Literal.denote_neg_iff h1]; omega
  exact ⟨hneg, Literal.denote_of_not_negative hneg, Literal.widened_of_not_negative hneg⟩

theorem widened_of_pos (h1 : src1.WellFormed) (hb : 0 < src1.denote s1) :
    src1.denote s1 = src1.value ∧ (∀ req, src1.widened s1 req = src1.value) ∧ 0 < src1.value := by
  obtain ⟨-, hden, hwid⟩ := widened_of_nonneg h1 (Int.le_of_lt hb)
  exact ⟨hden, hwid, by omega⟩

theorem binaryOpResult_div_nonneg (req : Nat) (h1 : src1.WellFormed) (hb : 0 < src1.denote s1)
    (hneg : src0.negative s0 = false) (p1 : Bool) :
    binaryOpResult src0 src1 d (src0.widened s0 req) (src1.widened s1 req) (!src0.negative s0) p1
      .div = .ok (exactBinaryOp .div (src0.denote s0) (src1.denote s1)) := by
  obtain ⟨hden, hwid, hpos⟩ := widened_of_pos h1 hb
  simp [binaryOpResult, hneg, hwid, hden, Literal.widened_of_not_negative hneg,
    Literal.denote_of_not_negative hneg, exactBinaryOp, hpos.ne']

theorem binaryOpResult_mod_nonneg (req : Nat) (h1 : src1.WellFormed) (hb : 0 < src1.denote s1)
    (hneg : src0.negative s0 = false) (p1 : Bool) :
    binaryOpResult src0 src1 d (src0.widened s0 req) (src1.widened s1 req) (!src0.negative s0) p1
      .mod = .ok (exactBinaryOp .mod (src0.denote s0) (src1.denote s1)) := by
  obtain ⟨hden, hwid, hpos⟩ := widened_of_pos h1 hb
  simp [binaryOpResult, hneg, hwid, hden, Literal.widened_of_not_negative hneg,
    Literal.denote_of_not_negative hneg, exactBinaryOp, hpos.ne', Int.tmod_eq_emod_of_nonneg]

/-- Only a signed source is negative, and its magnitude fits one more bit. -/
theorem magnitude_of_negative (h0 : src0.WellFormed) (hneg : src0.negative s0 = true) :
    s0 = true ∧ src0.denote s0 = -((-src0.denote s0).toNat : Int) ∧
      (-src0.denote s0).toNat < 2 ^ (src0.width + 1) := by
  have hs : s0 = true := by
    cases s0 with
    | false => simp [Literal.negative] at hneg
    | true => rfl
  have hlt := (Literal.denote_neg_iff h0 s0).mpr hneg
  have hge := Literal.neg_two_pow_le_denote h0 s0
  have hpow : (2 : Int) ^ (src0.width - 1) < 2 ^ (src0.width + 1) :=
    pow_lt_pow_right₀ (by decide) (by omega)
  have hmag : ((-src0.denote s0).toNat : Int) < 2 ^ (src0.width + 1) := by omega
  exact ⟨hs, by omega, by exact_mod_cast hmag⟩

theorem binaryOpResult_div_neg (h0 : src0.WellFormed) (h1 : src1.WellFormed)
    (hb : 0 < src1.denote s1) (hneg : src0.negative s0 = true)
    (hi : src0.width + 2 ≤ 2 ^ 32 ∧ d < 2 ^ 32) (x0 : Nat) (p1 : Bool) :
    ∃ r, binaryOpResult src0 src1 d x0 (src1.widened s1 req) (!src0.negative s0) p1 .div = .ok r ∧
      r ≡ exactBinaryOp .div (src0.denote s0) (src1.denote s1) [ZMOD 2 ^ d] := by
  obtain ⟨hden, hwid, hpos⟩ := widened_of_pos h1 hb
  obtain ⟨hs, hmag, hlt⟩ := magnitude_of_negative h0 hneg
  subst hs
  generalize (-src0.denote true).toNat = m at hmag hlt
  have habs : absLiteral src0 = .ok m := by rw [absLiteral_eq h0 hneg hi.1, hmag]; simp
  have hq : m / src1.value < 2 ^ (src0.width + 1) := (Nat.div_le_self _ _).trans_lt hlt
  have hnegate := implementUnaryOp_negate_nat (d := d) hq (by omega) (by omega)
  refine ⟨_, ?_, toNat_emod_modEq (-((m / src1.value : Nat) : Int)) d |>.trans ?_⟩
  · simp [binaryOpResult, hneg, habs, hwid, hpos.ne', hnegate, bind, Except.bind, pure, Except.pure]
  · rw [exactBinaryOp, hmag, hden, Int.neg_tdiv, Int.natCast_div,
      Int.tdiv_eq_ediv_of_nonneg (by omega)]

theorem binaryOpResult_div_neg_error (h0 : src0.WellFormed) (h1 : src1.WellFormed)
    (hb : 0 < src1.denote s1) (hneg : src0.negative s0 = true)
    (hi : ¬ (src0.width + 2 ≤ 2 ^ 32 ∧ d < 2 ^ 32)) (x0 : Nat) (p1 : Bool) :
    binaryOpResult src0 src1 d x0 (src1.widened s1 req) (!src0.negative s0) p1 .div =
      .error .assertion := by
  obtain ⟨hden, hwid, hpos⟩ := widened_of_pos h1 hb
  obtain ⟨hs, hmag, hlt⟩ := magnitude_of_negative h0 hneg
  subst hs
  by_cases hw : src0.width + 2 ≤ 2 ^ 32
  · have hq : (-src0.denote true).toNat / src1.value < 2 ^ (src0.width + 1) :=
      (Nat.div_le_self _ _).trans_lt hlt
    have hwf : (⟨(-src0.denote true).toNat / src1.value, src0.width + 1⟩ : Literal).WellFormed :=
      ⟨hq, by simp, by simp only [sizeMax]; omega⟩
    have hnegate := implementUnaryOp_error hwf false .negate (d := d) (by simp only; omega)
    simp [binaryOpResult, hneg, absLiteral_eq h0 hneg hw, hwid, hpos.ne', hnegate, bind,
      Except.bind]
  · simp [binaryOpResult, hneg, absLiteral_error h0 hneg hw, hpos.ne', bind, Except.bind]

theorem binaryOpResult_mod_neg (h0 : src0.WellFormed) (h1 : src1.WellFormed)
    (hb : 0 < src1.denote s1) (hneg : src0.negative s0 = true)
    (hi : src0.width + 2 ≤ 2 ^ 32 ∧ src1.width < 2 ^ 32 ∧ d < 2 ^ 32) (x0 : Nat) (p1 : Bool) :
    ∃ r, binaryOpResult src0 src1 d x0 (src1.widened s1 req) (!src0.negative s0) p1 .mod = .ok r ∧
      r ≡ exactBinaryOp .mod (src0.denote s0) (src1.denote s1) [ZMOD 2 ^ d] := by
  obtain ⟨hden, hwid, hpos⟩ := widened_of_pos h1 hb
  obtain ⟨hs, hmag, hlt⟩ := magnitude_of_negative h0 hneg
  subst hs
  generalize (-src0.denote true).toNat = m at hmag hlt
  have habs : absLiteral src0 = .ok m := by rw [absLiteral_eq h0 hneg hi.1, hmag]; simp
  have hq : m % src1.value < 2 ^ src1.width := (Nat.mod_lt _ hpos).trans h1.fits
  have hnegate := implementUnaryOp_negate_nat (d := d) hq h1.width_pos (by omega)
  refine ⟨_, ?_, toNat_emod_modEq (-((m % src1.value : Nat) : Int)) d |>.trans ?_⟩
  · simp [binaryOpResult, hneg, habs, hwid, hpos.ne', hnegate, bind, Except.bind, pure, Except.pure]
  · rw [exactBinaryOp, hmag, hden, Int.neg_tmod, Int.natCast_mod,
      Int.tmod_eq_emod_of_nonneg (by omega)]

theorem binaryOpResult_mod_neg_error (h0 : src0.WellFormed) (h1 : src1.WellFormed)
    (hb : 0 < src1.denote s1) (hneg : src0.negative s0 = true)
    (hi : ¬ (src0.width + 2 ≤ 2 ^ 32 ∧ src1.width < 2 ^ 32 ∧ d < 2 ^ 32)) (x0 : Nat) (p1 : Bool) :
    binaryOpResult src0 src1 d x0 (src1.widened s1 req) (!src0.negative s0) p1 .mod =
      .error .assertion := by
  obtain ⟨hden, hwid, hpos⟩ := widened_of_pos h1 hb
  obtain ⟨hs, hmag, hlt⟩ := magnitude_of_negative h0 hneg
  subst hs
  by_cases hw : src0.width + 2 ≤ 2 ^ 32
  · have hq : (-src0.denote true).toNat % src1.value < 2 ^ src1.width :=
      (Nat.mod_lt _ hpos).trans h1.fits
    have hwf : (⟨(-src0.denote true).toNat % src1.value, src1.width⟩ : Literal).WellFormed :=
      ⟨hq, h1.width_pos, h1.width_le⟩
    have hnegate := implementUnaryOp_error hwf false .negate (d := d) (by simp only; omega)
    simp [binaryOpResult, hneg, absLiteral_eq h0 hneg hw, hwid, hpos.ne', hnegate, bind,
      Except.bind]
  · simp [binaryOpResult, hneg, absLiteral_error h0 hneg hw, hpos.ne', bind, Except.bind]

end Division

/-! ### Shifts -/

/-- Shifting the widened pattern right shifts the denoted integer, as long as the
    sign was extended over all bits that remain. -/
theorem shiftRight_modEq (l : Literal) (s : Bool) (d n : Nat) :
    ((l.widened s (d + n) >>> n : Nat) : Int) ≡ l.denote s / 2 ^ n [ZMOD 2 ^ d] := by
  rw [Nat.shiftRight_eq_div_pow, Int.natCast_div]
  push_cast
  cases h : l.negative s with
  | true =>
      obtain ⟨k, hk⟩ : ∃ k, max l.width (d + n) = d + k + n :=
        ⟨max l.width (d + n) - (d + n), by omega⟩
      rw [Literal.widened_of_negative h, hk, pow_add, Int.add_mul_ediv_right _ _ (by positivity),
        pow_add]
      exact Int.modEq_iff_dvd.mpr (by simp)
  | false => rw [Literal.widened_of_not_negative h, Literal.denote_of_not_negative h]

/-- Without the extension the shift is wrong: the pattern runs out of sign bits. -/
theorem shiftRight_not_modEq {x m d n : Nat} {a : Int} (hx : x < 2 ^ m) (ha : a < 0)
    (ham : -2 ^ m ≤ a) (hd : 0 < d) (hmn : m ≤ n ∨ m < d) :
    ¬ ((x >>> n : Nat) : Int) ≡ a / 2 ^ n [ZMOD 2 ^ d] := by
  intro h
  have hpn : (0 : Int) < 2 ^ n := Int.pow_pos (by decide)
  have hneg : a / 2 ^ n < 0 := Int.ediv_neg_of_neg_of_pos ha hpn
  obtain ⟨k, hk⟩ := Int.modEq_iff_dvd.mp h.symm
  rw [Nat.shiftRight_eq_div_pow] at hk
  rcases Nat.lt_or_ge n m with hnm | hnm
  · have hmd : m < d := hmn.resolve_left (by omega)
    have hlow : -2 ^ m ≤ a / 2 ^ n := by
      refine le_trans ham ?_
      rw [Int.le_ediv_iff_mul_le hpn]
      nlinarith [Int.pow_pos (n := 2) (m := n) (by decide)]
    have hhigh : ((x / 2 ^ n : Nat) : Int) < 2 ^ m := by
      exact_mod_cast (Nat.div_le_self _ _).trans_lt hx
    have hpow : (2 : Int) ^ (m + 1) ≤ 2 ^ d := pow_le_pow_right₀ (by decide) hmd
    rw [pow_succ] at hpow
    have hk1 : (0 : Int) < 2 ^ d * k := by
      have hq : (0 : Int) ≤ ((x / 2 ^ n : Nat) : Int) := Int.natCast_nonneg _
      linarith
    have hkpos : 0 < k := by
      by_contra hk0
      nlinarith [Int.pow_pos (n := 2) (m := d) (by decide)]
    nlinarith
  · have hx0 : x / 2 ^ n = 0 :=
      Nat.div_eq_of_lt (hx.trans_le (Nat.pow_le_pow_right (by decide) hnm))
    have hm1 : a / 2 ^ n = -1 := by
      have hle : (2 : Int) ^ m ≤ 2 ^ n := pow_le_pow_right₀ (by decide) hnm
      have : -1 ≤ a / 2 ^ n := by rw [Int.le_ediv_iff_mul_le hpn]; omega
      omega
    rw [hx0, hm1] at hk
    have hdvd : (2 : Int) ^ d ∣ 1 := ⟨k, by simpa using hk⟩
    have hpow : (2 : Int) ^ 1 ≤ 2 ^ d := pow_le_pow_right₀ (by decide) hd
    have := Int.le_of_dvd (by decide) hdvd
    omega

/-! ### Comparisons -/

section Comparisons

variable {src0 src1 : Literal} {d : Nat} {s0 s1 : Bool}

/-- At the common width a negative source is off by the same power of two. -/
theorem widened_common {l : Literal} {s : Bool} {m : Nat} (hm : l.width ≤ m) :
    (l.widened s m : Int) = l.denote s + (if l.negative s then 2 ^ m else 0) := by
  cases h : l.negative s with
  | true => rw [Literal.widened_of_negative h, Nat.max_eq_right hm]; simp
  | false => rw [Literal.widened_of_not_negative h, Literal.denote_of_not_negative h]; simp

/-- The ordered comparisons are exact: the sign test settles mixed signs, and equal
    signs leave patterns that compare like the integers. -/
theorem binaryOpResult_order (h0 : src0.WellFormed) (h1 : src1.WellFormed)
    {type : BinaryOpType} (htype : type ∈ [.gt, .ge, .lt, BinaryOpType.le]) :
    binaryOpResult src0 src1 d (src0.widened s0 (max src0.width src1.width))
        (src1.widened s1 (max src0.width src1.width)) (!src0.negative s0) (!src1.negative s1) type
      = .ok (exactBinaryOp type (src0.denote s0) (src1.denote s1)) := by
  have hw0 := widened_common (s := s0) (Nat.le_max_left src0.width src1.width)
  have hw1 := widened_common (s := s1) (Nat.le_max_right src0.width src1.width)
  have hn0 := Literal.denote_neg_iff h0 s0
  have hn1 := Literal.denote_neg_iff h1 s1
  generalize src0.widened s0 (max src0.width src1.width) = x0 at hw0 ⊢
  generalize src1.widened s1 (max src0.width src1.width) = x1 at hw1 ⊢
  generalize (2 : Int) ^ max src0.width src1.width = p at hw0 hw1
  generalize src0.denote s0 = a at hw0 hn0 ⊢
  generalize src1.denote s1 = b at hw1 hn1 ⊢
  cases hs0 : src0.negative s0 <;> cases hs1 : src1.negative s1 <;>
    simp only [hs0, hs1, Bool.false_eq_true, if_false, if_true, iff_false, iff_true,
      Int.not_lt] at hw0 hw1 hn0 hn1
  all_goals
    cases type <;> simp only [List.mem_cons, List.not_mem_nil, reduceCtorEq, or_false] at htype <;>
    simp only [binaryOpResult, compareSigned, exactBinaryOp, Bool.not_false, Bool.not_true,
      decide_eq_true_eq] <;>
    congr 1 <;> split_ifs <;> omega

/-- The patterns `EQ` and `NE` compare are equal iff the integers are congruent. -/
theorem widened_eq_iff (h0 : src0.WellFormed) (h1 : src1.WellFormed) (s0 s1 : Bool) :
    src0.widened s0 (max src0.width src1.width) = src1.widened s1 (max src0.width src1.width) ↔
      src0.denote s0 ≡ src1.denote s1 [ZMOD 2 ^ max src0.width src1.width] := by
  have hm0 := src0.widened_modEq s0 (max src0.width src1.width)
  have hm1 := src1.widened_modEq s1 (max src0.width src1.width)
  have hlt : ∀ {l : Literal} {s : Bool}, l.WellFormed → l.width ≤ max src0.width src1.width →
      (l.widened s (max src0.width src1.width) : Int) < 2 ^ max src0.width src1.width := by
    intro l s hl hle
    have hpow : (2 : Int) ^ l.width ≤ 2 ^ max src0.width src1.width :=
      pow_le_pow_right₀ (by decide) hle
    have hfit : (l.value : Int) < 2 ^ l.width := by exact_mod_cast hl.fits
    rw [widened_common hle]
    cases h : l.negative s with
    | true => have := (Literal.denote_neg_iff hl s).mpr h; simp only [if_true]; omega
    | false =>
        rw [Literal.denote_of_not_negative h]
        simp only [Bool.false_eq_true, if_false]
        omega
  constructor
  · intro h
    rw [h] at hm0
    exact hm0.symm.trans hm1
  · intro h
    have hmod := (hm0.trans h).trans hm1.symm
    rw [Int.ModEq, Int.emod_eq_of_lt (by omega) (hlt h0 (Nat.le_max_left _ _)),
      Int.emod_eq_of_lt (by omega) (hlt h1 (Nat.le_max_right _ _))] at hmod
    exact_mod_cast hmod

/-- `EQ` and `NE` answer for congruence, not for equality. -/
theorem binaryOpResult_eq_ne (type : BinaryOpType) (h0 : src0.WellFormed) (h1 : src1.WellFormed)
    (hd : 0 < d) (p0 p1 : Bool) (htype : type ∈ [.eq, BinaryOpType.ne]) :
    ∃ r, binaryOpResult src0 src1 d (src0.widened s0 (max src0.width src1.width))
        (src1.widened s1 (max src0.width src1.width)) p0 p1 type = .ok r ∧
      (r ≡ exactBinaryOp type (src0.denote s0) (src1.denote s1) [ZMOD 2 ^ d] ↔
        (src0.denote s0 = src1.denote s1 ∨
          ¬ src0.denote s0 ≡ src1.denote s1 [ZMOD 2 ^ max src0.width src1.width])) := by
  have hiff := widened_eq_iff h0 h1 s0 s1
  have h01 : ¬ (0 : Int) ≡ 1 [ZMOD 2 ^ d] := by
    intro h
    have hdvd := Int.le_of_dvd (by decide) (Int.modEq_iff_dvd.mp h)
    have hpow : (2 : Int) ^ 1 ≤ 2 ^ d := pow_le_pow_right₀ (by decide) hd
    omega
  have h10 : ¬ (1 : Int) ≡ 0 [ZMOD 2 ^ d] := fun h => h01 h.symm
  have hrefl : src0.denote s0 = src1.denote s1 →
      src0.denote s0 ≡ src1.denote s1 [ZMOD 2 ^ max src0.width src1.width] := fun h => by rw [h]
  cases type <;> simp only [List.mem_cons, List.not_mem_nil, reduceCtorEq, or_false] at htype <;>
    refine ⟨_, rfl, ?_⟩ <;> simp only [exactBinaryOp, hiff, ne_eq] <;>
    by_cases heq : src0.denote s0 = src1.denote s1 <;>
    by_cases hcong : src0.denote s0 ≡ src1.denote s1 [ZMOD 2 ^ max src0.width src1.width] <;>
    simp_all

end Comparisons

/-! ### The exact domain -/

section Exact

variable {src0 src1 : Literal} {d req : Nat} {s0 s1 : Bool}

/-- Widening, and then a result that is exact under `P`, is exact under both. -/
theorem implementBinaryOp_ok_iff {type : BinaryOpType} (req : Nat) {P : Prop}
    (h0 : src0.WellFormed) (h1 : src1.WellFormed) (hd : 0 < d)
    (hreq : requiredSourceWidth src0 src1 d type = .ok req)
    (hresult : src0.Widenable s0 req → src1.Widenable s1 req →
      ((truncate · d) <$> binaryOpResult src0 src1 d (src0.widened s0 req) (src1.widened s1 req)
          (!src0.negative s0) (!src1.negative s1) type
        = .ok ((exactBinaryOp type (src0.denote s0) (src1.denote s1) % 2 ^ d).toNat) ↔ P)) :
    implementBinaryOp src0 src1 d s0 s1 type
        = .ok ((exactBinaryOp type (src0.denote s0) (src1.denote s1) % 2 ^ d).toNat) ↔
      src0.Widenable s0 req ∧ src1.Widenable s1 req ∧ P := by
  by_cases hw : src0.Widenable s0 req ∧ src1.Widenable s1 req
  · rw [implementBinaryOp_of_widenable h0 h1 hd hreq hw.1 hw.2, hresult hw.1 hw.2]
    exact ⟨fun hp => ⟨hw.1, hw.2, hp⟩, fun h => h.2.2⟩
  · rw [implementBinaryOp_of_not_widenable h0 h1 hd hreq hw]
    exact ⟨nofun, fun h => absurd ⟨h.1, h.2.1⟩ hw⟩

/-- A result congruent to the exact one is exact after truncation. -/
theorem map_truncate_of_exists {e : Except Failure Int} {x : Int}
    (h : ∃ r, e = .ok r ∧ r ≡ x [ZMOD 2 ^ d]) :
    (truncate · d) <$> e = .ok ((x % 2 ^ d).toNat) := by
  obtain ⟨r, rfl, hr⟩ := h
  exact map_truncate_ok_iff.mpr hr

/-- A left shift is exact once its amount fits `size_t`. -/
theorem binaryOpResult_shl_iff (h1 : src1.WellFormed) (hb : 0 ≤ src1.denote s1) :
    (truncate · d) <$> binaryOpResult src0 src1 d (src0.widened s0 d) (src1.widened s1 d)
        (!src0.negative s0) (!src1.negative s1) .shl
        = .ok ((exactBinaryOp .shl (src0.denote s0) (src1.denote s1) % 2 ^ d).toNat) ↔
      src1.value ≤ sizeMax := by
  obtain ⟨hneg, hden, hwid⟩ := widened_of_nonneg h1 hb
  rw [hwid, hden, hneg]
  by_cases hv : src1.value ≤ sizeMax
  · have hshift : ((src0.widened s0 d <<< src1.value : Nat) : Int) ≡
        src0.denote s0 * 2 ^ src1.value [ZMOD 2 ^ d] := by
      rw [Nat.shiftLeft_eq]
      push_cast
      exact (src0.widened_modEq s0 d).mul_right _
    simp only [hv, iff_true]
    refine map_truncate_of_exists ⟨_, ?_, hshift⟩
    simp [binaryOpResult, assert, mpToSizeT, Nat.not_lt.mpr hv, bind, Except.bind, pure,
      Except.pure]
  · simp [binaryOpResult, assert, mpToSizeT, Nat.not_le.mp hv, bind, Except.bind, Functor.map,
      Except.map, hv]

/-- A right shift by an amount that fits `size_t` shifts the widened pattern. -/
theorem binaryOpResult_shr (h1 : src1.WellFormed) (hb : 0 ≤ src1.denote s1)
    (hv : src1.value ≤ sizeMax) (x0 : Nat) (p0 : Bool) :
    binaryOpResult src0 src1 d x0 (src1.widened s1 req) p0 (!src1.negative s1) .shr
      = .ok ((x0 >>> src1.value : Nat) : Int) := by
  obtain ⟨hneg, -, hwid⟩ := widened_of_nonneg h1 hb
  simp [binaryOpResult, assert, mpToSizeT, Nat.not_lt.mpr hv, hneg, hwid, bind, Except.bind, pure,
    Except.pure]

/-- A negative source shifted right by so much that the required width wraps around
    is left without sign bits. -/
theorem shiftRight_wrapped (h0 : src0.WellFormed) (hneg : src0.negative s0 = true) (hd : 0 < d)
    {v : Nat} (hwrap : 2 ^ 64 ≤ d + v) (hw : src0.Widenable s0 req) :
    ¬ ((src0.widened s0 req >>> v : Nat) : Int) ≡ src0.denote s0 / 2 ^ v [ZMOD 2 ^ d] := by
  obtain ⟨hs, -, -⟩ := magnitude_of_negative h0 hneg
  have hlt := (Literal.denote_neg_iff h0 s0).mpr hneg
  have hwidth := hw.1 hs
  have hreq := hw.2 hneg
  have hpow : (2 : Int) ^ (src0.width - 1) ≤ 2 ^ max src0.width req :=
    pow_le_pow_right₀ (by decide) (by omega)
  have hx : (src0.widened s0 req : Int) < 2 ^ max src0.width req := by
    rw [Literal.widened_of_negative hneg]; omega
  have hge := Literal.neg_two_pow_le_denote h0 s0
  exact shiftRight_not_modEq (by exact_mod_cast hx) hlt (by omega) hd (by omega)

/-- The right shift is exact on the widths that do not wrap around and on the
    sources that are not negative. -/
theorem implementBinaryOp_shr_iff (h0 : src0.WellFormed) (h1 : src1.WellFormed) (hd : 0 < d)
    (hb : 0 ≤ src1.denote s1) :
    implementBinaryOp src0 src1 d s0 s1 .shr
        = .ok ((exactBinaryOp .shr (src0.denote s0) (src1.denote s1) % 2 ^ d).toNat) ↔
      BinaryOpInRange src0 src1 d s0 s1 .shr := by
  obtain ⟨hneg1, hden1, -⟩ := widened_of_nonneg h1 hb
  by_cases hv : src1.value ≤ sizeMax
  · have hreq : requiredSourceWidth src0 src1 d .shr = .ok ((d + src1.value) % 2 ^ 64) := by
      simp [requiredSourceWidth, mpToSizeT, Nat.not_lt.mpr hv, bind, Except.bind, pure, Except.pure]
    rw [implementBinaryOp_ok_iff _ (P := src0.negative s0 = true → d + src1.value < 2 ^ 64) h0 h1 hd
      hreq]
    · -- The wrapped width only differs from the intended one on inputs that are refused
      simp only [BinaryOpInRange, sourceWidth, Literal.Widenable, hneg1, hv, and_true,
        Bool.false_eq_true, false_implies]
      rcases Nat.lt_or_ge (d + src1.value) (2 ^ 64) with hlt | hge
      · rw [Nat.mod_eq_of_lt hlt]
        simp only [hlt, implies_true, and_true]
      · cases hneg : src0.negative s0 with
        | true => simp only [forall_const]; omega
        | false => simp only [Bool.false_eq_true, false_implies, and_true]
    · intro hw0 _
      rw [binaryOpResult_shr h1 hb hv, map_truncate_ok_iff, exactBinaryOp, hden1, Int.toNat_natCast]
      rcases Nat.lt_or_ge (d + src1.value) (2 ^ 64) with hlt | hge
      · simp only [Nat.mod_eq_of_lt hlt, hlt, implies_true, iff_true]
        exact shiftRight_modEq src0 s0 d src1.value
      · cases hneg : src0.negative s0 with
        | true =>
            simp only [forall_const, Nat.not_lt.mpr hge, iff_false]
            exact shiftRight_wrapped h0 hneg hd hge hw0
        | false =>
            simp only [Bool.false_eq_true, false_implies, iff_true]
            have h := shiftRight_modEq src0 s0 d src1.value
            rwa [Literal.widened_of_not_negative hneg] at h ⊢
  · have hreq : implementBinaryOp src0 src1 d s0 s1 .shr
        = .error (.runtimeError "Value too large to convert to integer") := by
      simp [implementBinaryOp, assert, h0.width_pos, h1.width_pos, hd, requiredSourceWidth,
        mpToSizeT, Nat.not_le.mp hv, bind, Except.bind]
    rw [hreq]
    simp [BinaryOpInRange, hv]

/-- `ImplementBinaryOp` is exact precisely on `BinaryOpInRange`. -/
theorem implementBinaryOp_exact_iff (h0 : src0.WellFormed) (h1 : src1.WellFormed) (s0 s1 : Bool)
    (hd : 0 < d) (type : BinaryOpType) (hdef : type.Defined (src1.denote s1)) :
    implementBinaryOp src0 src1 d s0 s1 type
        = .ok ((exactBinaryOp type (src0.denote s0) (src1.denote s1) % 2 ^ d).toNat) ↔
      BinaryOpInRange src0 src1 d s0 s1 type := by
  cases type
  case shr => exact implementBinaryOp_shr_iff h0 h1 hd hdef
  case shl =>
    exact implementBinaryOp_ok_iff d h0 h1 hd rfl fun _ _ => binaryOpResult_shl_iff h1 hdef
  case div =>
    refine implementBinaryOp_ok_iff d h0 h1 hd rfl fun _ _ => ?_
    cases hneg : src0.negative s0 with
    | false =>
        have h := binaryOpResult_div_nonneg (d := d) d h1 hdef hneg (!src1.negative s1)
        rw [hneg] at h
        simp only [h, map_truncate_ok_iff, Int.ModEq.refl, Bool.false_eq_true, false_implies]
    | true =>
        rw [← hneg]
        by_cases hi : src0.width + 2 ≤ 2 ^ 32 ∧ d < 2 ^ 32
        · rw [map_truncate_of_exists (binaryOpResult_div_neg h0 h1 hdef hneg hi _ _)]
          simp only [hi, and_self, implies_true]
        · rw [binaryOpResult_div_neg_error h0 h1 hdef hneg hi]
          simp only [hi, hneg, forall_const, iff_false]
          exact nofun
  case mod =>
    refine implementBinaryOp_ok_iff d h0 h1 hd rfl fun _ _ => ?_
    cases hneg : src0.negative s0 with
    | false =>
        have h := binaryOpResult_mod_nonneg (d := d) d h1 hdef hneg (!src1.negative s1)
        rw [hneg] at h
        simp only [h, map_truncate_ok_iff, Int.ModEq.refl, Bool.false_eq_true, false_implies]
    | true =>
        rw [← hneg]
        by_cases hi : src0.width + 2 ≤ 2 ^ 32 ∧ src1.width < 2 ^ 32 ∧ d < 2 ^ 32
        · rw [map_truncate_of_exists (binaryOpResult_mod_neg h0 h1 hdef hneg hi _ _)]
          simp only [hi, and_self, implies_true]
        · rw [binaryOpResult_mod_neg_error h0 h1 hdef hneg hi]
          simp only [hi, hneg, forall_const, iff_false]
          exact nofun
  case eq =>
    refine implementBinaryOp_ok_iff (max src0.width src1.width) h0 h1 hd rfl fun _ _ => ?_
    obtain ⟨r, hr, hiff⟩ := binaryOpResult_eq_ne .eq h0 h1 hd (!src0.negative s0)
      (!src1.negative s1) (by simp)
    rw [hr, map_truncate_ok_iff, hiff]
  case ne =>
    refine implementBinaryOp_ok_iff (max src0.width src1.width) h0 h1 hd rfl fun _ _ => ?_
    obtain ⟨r, hr, hiff⟩ := binaryOpResult_eq_ne .ne h0 h1 hd (!src0.negative s0)
      (!src1.negative s1) (by simp)
    rw [hr, map_truncate_ok_iff, hiff]
  case gt | ge | lt | le =>
    refine implementBinaryOp_ok_iff (max src0.width src1.width) h0 h1 hd rfl fun _ _ => ?_
    rw [binaryOpResult_order h0 h1 (by decide), map_truncate_ok_iff]
    exact iff_true_intro (Int.ModEq.refl _)
  all_goals
    refine implementBinaryOp_ok_iff d h0 h1 hd rfl fun _ _ => iff_true_intro ?_
    exact map_truncate_of_exists (binaryOpResult_congr (src0.widened_modEq s0 d)
      (src1.widened_modEq s1 d) (by simp))

theorem implementBinaryOp_lt {type : BinaryOpType} {v : Nat}
    (h : implementBinaryOp src0 src1 d s0 s1 type = .ok v) : v < 2 ^ d := by
  unfold implementBinaryOp at h
  simp only [Lib.Except.bind_eq_ok_iff] at h
  obtain ⟨_, -, _, -, _, -, _, -, _, -, _, -, _, -, _, -, _, -, h⟩ := h
  exact Except.ok.inj h ▸ truncate_lt _ _

/-! ### Comparisons are mutually exclusive -/

/-- A comparison's exact result is 1 iff the comparison holds. -/
theorem ite_emod_eq_one_iff {P : Prop} [Decidable P] (hd : 0 < d) :
    (((if P then 1 else 0 : Int) % 2 ^ d).toNat = 1) ↔ P := by
  have hpow : (2 : Int) ^ 1 ≤ 2 ^ d := pow_le_pow_right₀ (by decide) hd
  by_cases hP : P
  · simp only [hP, if_true, iff_true]
    rw [Int.emod_eq_of_lt (by decide) (by omega)]
    rfl
  · simp [hP]

theorem implementBinaryOp_lt_iff (h0 : src0.WellFormed) (h1 : src1.WellFormed) (hd : 0 < d)
    (hw : src0.Widenable s0 (max src0.width src1.width) ∧
      src1.Widenable s1 (max src0.width src1.width)) :
    implementBinaryOp src0 src1 d s0 s1 .lt = .ok 1 ↔ src0.denote s0 < src1.denote s1 := by
  have h := (implementBinaryOp_exact_iff h0 h1 s0 s1 hd .lt trivial).mpr ⟨hw.1, hw.2, trivial⟩
  rw [h, Except.ok.injEq]
  exact ite_emod_eq_one_iff hd

theorem implementBinaryOp_gt_iff (h0 : src0.WellFormed) (h1 : src1.WellFormed) (hd : 0 < d)
    (hw : src0.Widenable s0 (max src0.width src1.width) ∧
      src1.Widenable s1 (max src0.width src1.width)) :
    implementBinaryOp src0 src1 d s0 s1 .gt = .ok 1 ↔ src1.denote s1 < src0.denote s0 := by
  have h := (implementBinaryOp_exact_iff h0 h1 s0 s1 hd .gt trivial).mpr ⟨hw.1, hw.2, trivial⟩
  rw [h, Except.ok.injEq]
  exact ite_emod_eq_one_iff hd

theorem implementBinaryOp_eq_iff (h0 : src0.WellFormed) (h1 : src1.WellFormed) (hd : 0 < d)
    (hw : src0.Widenable s0 (max src0.width src1.width) ∧
      src1.Widenable s1 (max src0.width src1.width)) :
    implementBinaryOp src0 src1 d s0 s1 .eq = .ok 1 ↔
      src0.denote s0 ≡ src1.denote s1 [ZMOD 2 ^ max src0.width src1.width] := by
  rw [implementBinaryOp_of_widenable h0 h1 hd rfl hw.1 hw.2, ← widened_eq_iff h0 h1 s0 s1,
    ← ite_emod_eq_one_iff (P := src0.widened s0 _ = _) hd]
  simp [binaryOpResult, Functor.map, Except.map, truncate_eq]

/-- Exactly one of `LT`, `EQ` and `GT` answers 1 iff `EQ` is exact. -/
theorem existsUnique_order_iff (h0 : src0.WellFormed) (h1 : src1.WellFormed) (hd : 0 < d) :
    (∃! type, type ∈ [.lt, .eq, BinaryOpType.gt] ∧
        implementBinaryOp src0 src1 d s0 s1 type = .ok 1) ↔
      BinaryOpInRange src0 src1 d s0 s1 .eq := by
  by_cases hw : src0.Widenable s0 (max src0.width src1.width) ∧
      src1.Widenable s1 (max src0.width src1.width)
  · have hlt := implementBinaryOp_lt_iff h0 h1 hd hw
    have heq := implementBinaryOp_eq_iff h0 h1 hd hw
    have hgt := implementBinaryOp_gt_iff h0 h1 hd hw
    simp only [BinaryOpInRange, sourceWidth, hw, true_and]
    constructor
    · rintro ⟨type, -, huniq⟩
      by_contra hbad
      obtain ⟨hne, hcong⟩ := not_or.mp hbad
      have h2 := huniq .eq ⟨by simp, heq.mpr (not_not.mp hcong)⟩
      rcases lt_or_gt_of_ne hne with h | h
      · exact nomatch h2.trans (huniq .lt ⟨by simp, hlt.mpr h⟩).symm
      · exact nomatch h2.trans (huniq .gt ⟨by simp, hgt.mpr h⟩).symm
    · intro hgood
      have heq' : implementBinaryOp src0 src1 d s0 s1 .eq = .ok 1 ↔
          src0.denote s0 = src1.denote s1 := by
        rw [heq]
        exact ⟨fun h => hgood.resolve_right (not_not.mpr h), fun h => by rw [h]⟩
      rcases lt_trichotomy (src0.denote s0) (src1.denote s1) with h | h | h
      · refine ⟨.lt, ⟨by simp, hlt.mpr h⟩, ?_⟩
        rintro type ⟨htype, hone⟩
        simp only [List.mem_cons, List.not_mem_nil, or_false] at htype
        rcases htype with rfl | rfl | rfl
        · rfl
        · exact absurd (heq'.mp hone) (by omega)
        · exact absurd (hgt.mp hone) (by omega)
      · refine ⟨.eq, ⟨by simp, heq'.mpr h⟩, ?_⟩
        rintro type ⟨htype, hone⟩
        simp only [List.mem_cons, List.not_mem_nil, or_false] at htype
        rcases htype with rfl | rfl | rfl
        · exact absurd (hlt.mp hone) (by omega)
        · rfl
        · exact absurd (hgt.mp hone) (by omega)
      · refine ⟨.gt, ⟨by simp, hgt.mpr h⟩, ?_⟩
        rintro type ⟨htype, hone⟩
        simp only [List.mem_cons, List.not_mem_nil, or_false] at htype
        rcases htype with rfl | rfl | rfl
        · exact absurd (hlt.mp hone) (by omega)
        · exact absurd (heq'.mp hone) (by omega)
        · rfl
  · constructor
    · rintro ⟨type, ⟨htype, hone⟩, -⟩
      have hreq : requiredSourceWidth src0 src1 d type = .ok (max src0.width src1.width) := by
        simp only [List.mem_cons, List.not_mem_nil, or_false] at htype
        rcases htype with rfl | rfl | rfl <;> rfl
      rw [implementBinaryOp_of_not_widenable h0 h1 hd hreq hw] at hone
      exact nomatch hone
    · intro h
      exact absurd ⟨h.1, h.2.1⟩ hw

end Exact

/-! ## The reference arithmetic -/

/-- The reference arithmetic is exact precisely where every bit index fits 32 bits
    and, for `EQ` and `NE`, the sources are not two different integers that are
    congruent modulo two to the larger width; and there, only there, exactly one of
    `LT`, `EQ` and `GT` holds. -/
theorem referenceArithmetic_exact_iff {src0 src1 : Literal} (h0 : src0.WellFormed)
    (h1 : src1.WellFormed) (s0 s1 : Bool) {d : Nat} (hd : 0 < d) :
    (∀ type : BinaryOpType, type.Defined (src1.denote s1) →
      (implementBinaryOp src0 src1 d s0 s1 type
          = .ok ((exactBinaryOp type (src0.denote s0) (src1.denote s1) % 2 ^ d).toNat) ↔
        BinaryOpInRange src0 src1 d s0 s1 type)) ∧
    ((∃! type, type ∈ [.lt, .eq, BinaryOpType.gt] ∧
        implementBinaryOp src0 src1 d s0 s1 type = .ok 1) ↔
      BinaryOpInRange src0 src1 d s0 s1 .eq) ∧
    (∀ type : UnaryOpType,
      implementUnaryOp src0 s0 type d
          = .ok ((exactUnaryOp type (src0.denote s0) % 2 ^ d).toNat) ↔
        max src0.width d < 2 ^ 32) :=
  ⟨implementBinaryOp_exact_iff h0 h1 s0 s1 hd, existsUnique_order_iff h0 h1 hd,
    fun type => implementUnaryOp_exact_iff h0 s0 type d⟩

/-- The theorem at `-7` and `2`, both in four bits, where the truncated quotient is `-3`. -/
theorem referenceArithmetic_exact_neg_seven_two :
    implementBinaryOp ⟨9, 4⟩ ⟨2, 4⟩ 4 true false .div
      = .ok ((exactBinaryOp .div (Literal.denote ⟨9, 4⟩ true) 2 % 2 ^ 4).toNat) := by
  have h0 : Literal.WellFormed ⟨9, 4⟩ := ⟨by decide, by decide, by decide⟩
  have h1 : Literal.WellFormed ⟨2, 4⟩ := ⟨by decide, by decide, by decide⟩
  have hdef : BinaryOpType.div.Defined (Literal.denote ⟨2, 4⟩ false) := by
    simp [BinaryOpType.Defined, Literal.denote, Literal.negative]
  refine ((referenceArithmetic_exact_iff h0 h1 true false (d := 4) (by decide)).1 .div hdef).mpr ?_
  simp [BinaryOpInRange, Literal.Widenable, sourceWidth]

/-- Minus one and fifteen, both in four bits: `EQ` compares the patterns and answers 1,
    as does `LT`, although the integers differ. -/
theorem referenceArithmetic_eq_of_same_pattern :
    Literal.denote ⟨15, 4⟩ true = -1 ∧ Literal.denote ⟨15, 4⟩ false = 15 ∧
    implementBinaryOp ⟨15, 4⟩ ⟨15, 4⟩ 1 true false .eq = .ok 1 ∧
    implementBinaryOp ⟨15, 4⟩ ⟨15, 4⟩ 1 true false .lt = .ok 1 ∧
    exactBinaryOp .eq (Literal.denote ⟨15, 4⟩ true) (Literal.denote ⟨15, 4⟩ false) = 0 := by
  decide

end Kanagawa
