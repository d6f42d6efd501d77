/-
  Kanagawa.Library.Integers

  The integers of the language, as the functions of `library/numeric` compute with them.

  The result of an operator has the type that inference gives it, and an assignment keeps the low
  bits of its value.
-/
import Kanagawa.Frontend.ConstexprSound
import Kanagawa.Arith.Literal

namespace Kanagawa.Library

open Frontend Lib.TwosComplement

/-- A value of an integer type. -/
structure IntValue where
  type : Ty
  value : Int

/-- The low bits of an integer, as a value of a type. -/
def convert (t : Ty) (v : Int) : Int :=
  match t with
  | .unsigned w => v % 2 ^ w.toNat
  | .signed w => Int.bmod v (2 ^ w.toNat)
  | _ => v

namespace IntValue

/-- A constant that is written down, or a template argument. -/
def const (n : Int) : IntValue := ⟨inferIntLiteralType none n, n⟩

/-- `cast<T>`, an assignment to a variable of the type, or an argument of the type. -/
def cast (t : Ty) (a : IntValue) : IntValue := ⟨t, convert t a.value⟩

def add (a b : IntValue) : IntValue :=
  cast (tAdd a.type b.type) ⟨tAdd a.type b.type, a.value + b.value⟩

def sub (a b : IntValue) : IntValue :=
  cast (tSub a.type b.type) ⟨tSub a.type b.type, a.value - b.value⟩

def neg (a : IntValue) : IntValue := cast (tNeg a.type) ⟨tNeg a.type, -a.value⟩

def xor (a b : IntValue) : IntValue :=
  cast (tBitwiseOr a.type b.type) ⟨tBitwiseOr a.type b.type, Int.xor a.value b.value⟩

def or (a b : IntValue) : IntValue :=
  cast (tBitwiseOr a.type b.type) ⟨tBitwiseOr a.type b.type, Int.lor a.value b.value⟩

/-- A left shift by a literal. -/
def shiftLeft (a : IntValue) (n : Nat) : IntValue :=
  cast (tShiftLLiteral a.type n) ⟨tShiftLLiteral a.type n, a.value * 2 ^ n⟩

/-- A right shift by a literal. -/
def shiftRight (a : IntValue) (n : Nat) : IntValue :=
  cast (tShiftRLiteral a.type n) ⟨tShiftRLiteral a.type n, a.value / 2 ^ n⟩

def and (a b : IntValue) : IntValue :=
  cast (tBitwiseAnd a.type b.type) ⟨tBitwiseAnd a.type b.type, Int.land a.value b.value⟩

/-- A conjunction with a literal. -/
def andLiteral (a : IntValue) (n : Int) : IntValue :=
  cast (tAndLiteral a.type n) ⟨tAndLiteral a.type n, Int.land a.value n⟩

/-- `~`. -/
def invert (a : IntValue) : IntValue := cast (tInvert a.type) ⟨tInvert a.type, Int.lnot a.value⟩

/-- A shift amount: a signed one is reinterpreted as unsigned, of the same width. -/
def shiftAmount (b : IntValue) : Nat := (b.value % 2 ^ (widthOf b.type).toNat).toNat

/-- An element of `cast<bool[bitsizeof a]>(a)`. -/
def bit (a : IntValue) (i : Nat) : Bool :=
  (a.value % 2 ^ (widthOf a.type).toNat).toNat.testBit i

end IntValue

/-! ## Shifts by a variable amount -/

/-- A computation, and the amounts it has shifted by. -/
structure Shifted (α : Type) where
  result : α
  amounts : List Int

namespace Shifted

instance : Monad Shifted where
  pure a := ⟨a, []⟩
  bind m f := ⟨(f m.result).result, m.amounts ++ (f m.result).amounts⟩

variable {α β : Type}

@[simp] theorem result_pure (a : α) : (pure a : Shifted α).result = a := rfl

@[simp] theorem amounts_pure (a : α) : (pure a : Shifted α).amounts = [] := rfl

@[simp] theorem result_bind (m : Shifted α) (f : α → Shifted β) :
    (m >>= f).result = (f m.result).result := rfl

@[simp] theorem amounts_bind (m : Shifted α) (f : α → Shifted β) :
    (m >>= f).amounts = m.amounts ++ (f m.result).amounts := rfl

end Shifted

namespace IntValue

def shiftLeftBy (a b : IntValue) : Shifted IntValue :=
  ⟨cast (tShiftL a.type b.type) ⟨tShiftL a.type b.type, a.value * 2 ^ shiftAmount b⟩, [b.value]⟩

def shiftRightBy (a b : IntValue) : Shifted IntValue :=
  ⟨cast (tShiftR a.type b.type) ⟨tShiftR a.type b.type, a.value / 2 ^ shiftAmount b⟩, [b.value]⟩

end IntValue

/-! ## Values that fit -/

variable {t : Ty} {v x y : Int}

theorem convert_of_inRange (ht : IsIntType t) (h : InRange t v) : convert t v = v := by
  cases ht with
  | unsigned w => exact Int.emod_eq_of_lt h.2.1 h.2.2
  | signed w =>
      obtain ⟨hpos, hlow, hhigh⟩ := h
      have hpow : ((2 ^ w.toNat : Nat) : Int) = 2 * 2 ^ (w - 1).toNat := by
        rw [show w.toNat = (w - 1).toNat + 1 by omega]
        push_cast
        ring
      apply Int.bmod_eq_of_le
      · omega
      · omega

/-- A type of some width holds what is converted to it. -/
theorem inRange_convert (ht : IsIntType t) (hpos : 0 < widthOf t) (v : Int) :
    InRange t (convert t v) := by
  cases ht with
  | unsigned w =>
      have hpow := two_pow_pos w.toNat
      exact ⟨hpos, Int.emod_nonneg v (by omega), Int.emod_lt_of_pos v hpow⟩
  | signed w =>
      have hwidth : 0 < w := hpos
      have hpow : ((2 ^ w.toNat : Nat) : Int) = 2 * 2 ^ (w - 1).toNat := by
        rw [show w.toNat = (w - 1).toNat + 1 by omega]
        push_cast
        ring
      have hlow := Int.le_bmod (x := v) (Nat.two_pow_pos w.toNat)
      have hhigh := Int.bmod_lt (x := v) (Nat.two_pow_pos w.toNat)
      exact ⟨hwidth, by show -2 ^ _ ≤ Int.bmod v _; omega, by show Int.bmod v _ < _; omega⟩

/-- Converting keeps the low bits. -/
theorem convert_modEq (ht : IsIntType t) (v : Int) :
    convert t v ≡ v [ZMOD 2 ^ (widthOf t).toNat] := by
  cases ht with
  | unsigned w => exact Int.mod_modEq v _
  | signed w =>
      have hmod := Int.bmod_emod (x := v) (m := 2 ^ w.toNat)
      push_cast at hmod
      exact hmod

/-- Only the low bits are converted. -/
theorem convert_congr (ht : IsIntType t) (h : x ≡ y [ZMOD 2 ^ (widthOf t).toNat]) :
    convert t x = convert t y := by
  cases ht with
  | unsigned w => exact h
  | signed w =>
      have hmod : x % ((2 ^ w.toNat : Nat) : Int) = y % ((2 ^ w.toNat : Nat) : Int) := by
        push_cast
        exact h
      show Int.bmod x _ = Int.bmod y _
      rw [← Int.emod_bmod x, ← Int.emod_bmod y, hmod]

theorem convert_eq_of_modEq (ht : IsIntType t) (hv : InRange t v)
    (h : x ≡ v [ZMOD 2 ^ (widthOf t).toNat]) : convert t x = v := by
  rw [convert_congr ht h]
  exact convert_of_inRange ht hv

/-! ## The operators -/

namespace IntValue

variable {a b : IntValue}

theorem const_inRange (n : Int) : InRange (const n).type (const n).value :=
  inRange_inferIntLiteralType n

theorem const_isIntType (n : Int) : IsIntType (const n).type := isIntType_inferIntLiteralType n

theorem add_eq (ha : IsIntType a.type) (hb : IsIntType b.type) (hx : InRange a.type a.value)
    (hy : InRange b.type b.value) : a.add b = ⟨tAdd a.type b.type, a.value + b.value⟩ := by
  rw [add, cast, convert_of_inRange (isIntType_tAdd ha hb) (inRange_tAdd ha hb hx hy)]

theorem sub_eq (ha : IsIntType a.type) (hb : IsIntType b.type) (hx : InRange a.type a.value)
    (hy : InRange b.type b.value) : a.sub b = ⟨tSub a.type b.type, a.value - b.value⟩ := by
  rw [sub, cast, convert_of_inRange (isIntType_tSub ha hb) (inRange_tSub ha hb hx hy)]

/-- A value of an integer type, in the range of the type. -/
structure Holds (a : IntValue) (v : Int) : Prop where
  isIntType : IsIntType a.type
  inRange : InRange a.type v
  value_eq : a.value = v

theorem holds_const (n : Int) : Holds (const n) n :=
  ⟨const_isIntType n, const_inRange n, rfl⟩

theorem inRange_natCast {w n : Nat} (hw : 0 < w) (h : n < 2 ^ w) : InRange (.unsigned w) n :=
  ⟨by exact_mod_cast hw, Int.natCast_nonneg n, by exact_mod_cast h⟩

/-- A value of an unsigned type. -/
theorem holds_natCast {w n : Nat} (hw : 0 < w) (h : n < 2 ^ w) :
    Holds ⟨.unsigned w, n⟩ n :=
  ⟨.unsigned w, inRange_natCast hw h, rfl⟩

namespace Holds

variable (ha : Holds a x) (hb : Holds b y)

/-- An operator whose type holds the exact result produces it. -/
theorem of_cast {t : Ty} (ht : IsIntType t) (h : InRange t v) :
    Holds (IntValue.cast t ⟨t, v⟩) v :=
  ⟨ht, h, convert_of_inRange ht h⟩

theorem eq_mk (h : Holds a x) : a = ⟨a.type, x⟩ := h.value_eq ▸ rfl

/-- An assignment to a type that holds the value. -/
theorem cast {t : Ty} (ha : Holds a x) (ht : IsIntType t) (h : InRange t x) :
    Holds (a.cast t) x := by
  rw [IntValue.cast, ha.value_eq]
  exact of_cast ht h

/-- An assignment to an unsigned type keeps the low bits. -/
theorem cast_unsigned {w m : Nat} (hw : 0 < w) (ha : Holds a m) :
    Holds (a.cast (.unsigned w)) (m % 2 ^ w : Nat) := by
  have hvalue : convert (.unsigned w) (m : Int) = ((m % 2 ^ w : Nat) : Int) := by
    push_cast
    rfl
  refine ⟨.unsigned _, inRange_natCast hw (Nat.mod_lt _ (Nat.two_pow_pos w)), ?_⟩
  show convert (.unsigned (w : Int)) a.value = _
  rw [ha.value_eq, hvalue]

include ha hb

theorem add : Holds (a.add b) (x + y) := by
  rw [IntValue.add, ha.value_eq, hb.value_eq]
  exact of_cast (isIntType_tAdd ha.isIntType hb.isIntType)
    (inRange_tAdd ha.isIntType hb.isIntType ha.inRange hb.inRange)

theorem sub : Holds (a.sub b) (x - y) := by
  rw [IntValue.sub, ha.value_eq, hb.value_eq]
  exact of_cast (isIntType_tSub ha.isIntType hb.isIntType)
    (inRange_tSub ha.isIntType hb.isIntType ha.inRange hb.inRange)

theorem and : Holds (a.and b) (Int.land x y) := by
  rw [IntValue.and, ha.value_eq, hb.value_eq]
  apply of_cast
  · exact isIntType_tBitwiseAnd ha.isIntType hb.isIntType
  · exact inRange_tBitwiseAnd ha.isIntType hb.isIntType ha.inRange hb.inRange

theorem or : Holds (a.or b) (Int.lor x y) := by
  have hsuper := inRange_tSuper (fun h h' => Within.lor h h') (fun h h' => lor_nonneg h h')
    ha.isIntType hb.isIntType ha.inRange hb.inRange
  rw [IntValue.or, ha.value_eq, hb.value_eq]
  apply of_cast
  · exact isIntType_tBitwiseOr ha.isIntType hb.isIntType
  · rw [tBitwiseOr, ha.isIntType.tIsInt, hb.isIntType.tIsInt]
    exact hsuper

omit ha in
theorem shiftAmount_eq (hy : 0 ≤ y) : shiftAmount b = y.toNat := by
  have hlt : y < 2 ^ (widthOf b.type).toNat := by
    obtain ⟨hint, hrange, -⟩ := hb
    generalize b.type = t at hint hrange
    cases hint with
    | unsigned w => exact hrange.2.2
    | signed w =>
        have hle : (w - 1).toNat ≤ w.toNat := by omega
        exact (hrange.within_signed.mono hle).2
  rw [shiftAmount, hb.value_eq, Int.emod_eq_of_lt hy hlt]

theorem shiftRightBy (hy : 0 ≤ y) : Holds (a.shiftRightBy b).result (x / 2 ^ y.toNat) := by
  show Holds (IntValue.cast _ ⟨_, _⟩) _
  rw [ha.value_eq, hb.shiftAmount_eq hy]
  have htype : tShiftR a.type b.type = a.type := by
    rw [tShiftR, ha.isIntType.tIsInt, hb.isIntType.tIsInt]
    rfl
  rw [htype]
  exact of_cast ha.isIntType (inRange_shiftR ha.isIntType ha.inRange _)

/-- Inference takes a left shift only for an amount of fewer than twenty bits. -/
theorem shiftLeftBy (hy : 0 ≤ y) (hwidth : widthOf b.type < 20) :
    Holds (a.shiftLeftBy b).result (x * 2 ^ y.toNat) := by
  show Holds (IntValue.cast _ ⟨_, _⟩) _
  rw [ha.value_eq, hb.shiftAmount_eq hy]
  have hrange := inRange_tShiftL ha.isIntType hb.isIntType ha.inRange hb.inRange hy
  have hint : IsIntType (tShiftL a.type b.type) := by
    have hw : ¬(tWidth b.type).getD 0 ≥ 20 := by
      have htype := hb.isIntType
      generalize b.type = t at htype hwidth
      cases htype with
      | unsigned w => exact not_le.mpr hwidth
      | signed w => exact not_le.mpr hwidth
    rw [tShiftL, ha.isIntType.tIsInt, hb.isIntType.tIsInt]
    simp only [Bool.and_self, Bool.not_true, Bool.false_eq_true, if_false, if_neg hw]
    exact isIntType_tWidenInt ha.isIntType _
  have herror : ¬tIsError (tShiftL a.type b.type) = true := by
    generalize tShiftL a.type b.type = t at hint
    cases hint <;> exact Bool.false_ne_true
  exact of_cast hint (hrange.resolve_left herror)

omit hb

theorem neg : Holds a.neg (-x) := by
  rw [IntValue.neg, ha.value_eq]
  exact of_cast (isIntType_tNeg ha.isIntType) (inRange_tNeg ha.isIntType ha.inRange)

theorem shiftLeft (n : Nat) : Holds (a.shiftLeft n) (x * 2 ^ n) := by
  rw [IntValue.shiftLeft, ha.value_eq, tShiftLLiteral, if_pos ha.isIntType.tIsInt]
  apply of_cast (isIntType_tWidenInt ha.isIntType _)
  exact inRange_tWidenInt ha.isIntType ha.inRange (two_pow_pos n).le le_rfl le_rfl

theorem shiftRight (n : Nat) : Holds (a.shiftRight n) (x / 2 ^ n) := by
  rw [IntValue.shiftRight, ha.value_eq, tShiftRLiteral, if_pos ha.isIntType.tIsInt]
  apply of_cast (isIntType_tNarrowInt ha.isIntType _)
  exact inRange_tNarrowInt ha.isIntType ha.inRange le_rfl
    (fun hx => Int.ediv_nonneg hx (two_pow_pos n).le) fun m h => h.ediv_two_pow

theorem andLiteral (n : Int) : Holds (a.andLiteral n) (Int.land x n) := by
  rw [IntValue.andLiteral, ha.value_eq]
  exact of_cast (isIntType_tAndLiteral ha.isIntType n)
    (inRange_tAndLiteral ha.isIntType ha.inRange n)

end Holds

/-- The highest bit is the sign. -/
theorem bit_sign {w : Int} (h : InRange (.signed w) v) :
    bit ⟨.signed w, v⟩ (w - 1).toNat = decide (v < 0) := by
  obtain ⟨hpos, hlow, hhigh⟩ := h
  have hwidth : w.toNat = (w - 1).toNat + 1 := by omega
  have hpow : (2 : Int) ^ w.toNat = 2 * 2 ^ (w - 1).toNat := by
    rw [hwidth]
    ring
  show (v % 2 ^ w.toNat).toNat.testBit (w - 1).toNat = _
  by_cases hneg : v < 0
  · -- The pattern of a negative value has the bit
    have hmod : v % 2 ^ w.toNat = v + 2 ^ w.toNat := by
      rw [← Int.add_emod_right, Int.emod_eq_of_lt (by omega) (by omega)]
    rw [decide_eq_true hneg, hmod]
    apply Nat.testBit_of_two_pow_le_and_two_pow_add_one_gt
    · zify
      rw [Int.toNat_of_nonneg (by omega)]
      omega
    · rw [← hwidth]
      zify
      rw [Int.toNat_of_nonneg (by omega)]
      omega
  · have hmod : v % 2 ^ w.toNat = v := Int.emod_eq_of_lt (by omega) (by omega)
    rw [decide_eq_false hneg, hmod]
    apply Nat.testBit_lt_two_pow
    zify
    rw [Int.toNat_of_nonneg (by omega)]
    exact hhigh

end IntValue

end Kanagawa.Library
