/-
  Kanagawa.Frontend.ConstexprSound

  When the evaluation of constant expressions is right.

  An operator on two integer literals is right when it gives a diagnostic, or a
  literal with the exact value that fits its own type.  It goes wrong for typed
  literals where the inferred type is an error or too narrow, and for shifts by
  an amount that is negative or that an `Int` cannot hold.  Negation, inversion,
  casts and reads of constants are always right.
-/
import Kanagawa.Lib.Bits
import Kanagawa.Frontend.InferSound
import Kanagawa.Frontend.Constexpr

namespace Kanagawa.Frontend

open Lib.TwosComplement Lib.Bits

/-! ## Truncation -/

theorem truncateUInt_eq (n x : Int) : truncateUInt n x = x % 2 ^ n.toNat :=
  land_two_pow_sub_one x n.toNat

/-- Truncation to an unsigned type gives the value of the type that is congruent
    to the argument. -/
theorem truncateUInt_spec {w : Int} (hw : 0 < w) (x : Int) :
    InRange (.unsigned w) (truncateUInt w x) ∧ truncateUInt w x ≡ x [ZMOD 2 ^ w.toNat] := by
  have hpos := two_pow_pos w.toNat
  rw [truncateUInt_eq]
  exact ⟨⟨hw, Int.emod_nonneg x hpos.ne', Int.emod_lt_of_pos x hpos⟩, Int.mod_modEq x _⟩

/-- Truncation to a signed type gives the value of the type that is congruent to
    the argument. -/
theorem truncateInt_spec {w : Int} (hw : 0 < w) (x : Int) :
    InRange (.signed w) (truncateInt w x) ∧ truncateInt w x ≡ x [ZMOD 2 ^ w.toNat] := by
  obtain ⟨m, rfl⟩ : ∃ m : Nat, w = m + 1 := ⟨(w - 1).toNat, by omega⟩
  have hm : ((m : Int) + 1 - 1).toNat = m := by omega
  have hm' : ((m : Int) + 1).toNat = m + 1 := by omega
  have hpos := two_pow_pos m
  have hpow : (2 : Int) ^ (m + 1) = 2 ^ m + 2 ^ m := by ring
  have hlt := Int.emod_lt_of_pos x (two_pow_pos (m + 1))
  have hnn := Int.emod_nonneg x (two_pow_pos (m + 1)).ne'
  have hdm := Int.mul_ediv_add_emod x (2 ^ (m + 1))
  have hhalf : x % 2 ^ m = x % 2 ^ (m + 1) % 2 ^ m := by
    rw [Int.emod_emod_of_dvd x ⟨2, by rw [pow_succ]⟩]
  rw [truncateInt, hm, hm', truncateUInt_eq, hm, InRange, hm, Int.modEq_iff_dvd]
  split
  · next hbit =>
    have hlow := (land_two_pow_eq_zero_iff x m).mp hbit.symm
    rw [hhalf, Int.emod_eq_of_lt hnn hlow]
    exact ⟨⟨hw, by omega, hlow⟩, ⟨x / 2 ^ (m + 1), by omega⟩⟩
  · next hbit =>
    have hhigh : ¬ x % 2 ^ (m + 1) < 2 ^ m := fun h =>
      hbit ((land_two_pow_eq_zero_iff x m).mpr h).symm
    have hsub : x % 2 ^ m = x % 2 ^ (m + 1) - 2 ^ m := by
      have hstep := Int.add_mul_emod_self_left (x % 2 ^ (m + 1) - 2 ^ m) (2 ^ m) 1
      rw [mul_one, sub_add_cancel] at hstep
      rw [hhalf, hstep, Int.emod_eq_of_lt (by omega) (by omega)]
    rw [hsub]
    refine ⟨⟨hw, by omega, by omega⟩, ⟨x / 2 ^ (m + 1) + 1, ?_⟩⟩
    rw [mul_add]
    omega

/-! ## Literals -/

theorem tResolved_of_isIntType {t : Ty} (h : IsIntType (typeOfOperand.go t)) :
    tResolved t = true := by
  induction t using typeOfOperand.go.induct with
  | case1 x t ih | case2 t x args ih | case3 t ih => exact ih h
  | case4 t hne =>
      rw [typeOfOperand.go] at h
      · cases h <;> rfl
      all_goals assumption

/-- A literal under its enum constants. -/
theorem exists_stripEnumValue {e : Exp} {x : Int} (h : fromIntegralConstexpr e = some x) :
    ∃ t w, stripEnumValue e = .intLiteral t w x ∧ w.isNone = isUntypedIntLiteral e := by
  induction e with
  | intLiteral t w y =>
      cases h
      exact ⟨t, w, rfl, by cases w <;> rfl⟩
  | enumValue t name value ih => exact ih h
  | boolLiteral t b | stringLiteral t b | other t => cases h

/-- A typed literal of an integer type has that type. -/
theorem typedIntLiteral_of_isIntType {t : Ty} (ht : IsIntType t) (x : Int) :
    ∃ w, typedIntLiteral t x = .intLiteral (some w) x ∧ inferIntLiteralType (some w) x = t := by
  cases ht with
  | unsigned w => exact ⟨⟨.unsignedLiteral, w⟩, rfl, rfl⟩
  | signed w => exact ⟨⟨.signedLiteral, w⟩, rfl, rfl⟩

/-! ## The rules give integer types -/

section Types

variable {s t : Ty}

theorem isIntType_tAdd (hs : IsIntType s) (ht : IsIntType t) : IsIntType (tAdd s t) := by
  cases hs <;> cases ht <;> constructor

theorem isIntType_tSub (hs : IsIntType s) (ht : IsIntType t) : IsIntType (tSub s t) := by
  cases hs <;> cases ht <;> constructor

theorem isIntType_tMul (hs : IsIntType s) (ht : IsIntType t) : IsIntType (tMul s t) := by
  cases hs <;> cases ht <;> constructor

theorem isIntType_tBitwiseOr (hs : IsIntType s) (ht : IsIntType t) :
    IsIntType (tBitwiseOr s t) := by
  rw [tBitwiseOr, hs.tIsInt, ht.tIsInt]
  exact isIntType_tSuper hs ht

theorem isIntType_tBitwiseAnd (hs : IsIntType s) (ht : IsIntType t) :
    IsIntType (tBitwiseAnd s t) := by
  have hsuper := isIntType_tSuper hs ht
  cases hs with
  | unsigned v =>
      cases ht with
      | unsigned w => exact .unsigned _
      | signed w => exact hsuper
  | signed v =>
      cases ht with
      | unsigned w => exact hsuper
      | signed w => exact hsuper

theorem isIntType_tWidenInt (hs : IsIntType s) (n : Int) : IsIntType (tWidenInt s n) := by
  cases hs <;> constructor

theorem isIntType_tNarrowInt (hs : IsIntType s) (n : Int) : IsIntType (tNarrowInt s n) := by
  cases hs <;> constructor

theorem isIntType_tMulLiteral (hs : IsIntType s) (n : Int) : IsIntType (tMulLiteral s n) := by
  unfold tMulLiteral
  rw [hs.tIsInt, (isIntType_tNeg hs).tIsInt]
  simp only [Bool.not_true, Bool.false_eq_true, if_false]
  split_ifs
  · exact .signed 2
  · exact .unsigned 1
  · exact isIntType_tWidenInt (isIntType_tNeg hs) _
  · exact isIntType_tWidenInt hs _

theorem isIntType_tAndLiteral (hs : IsIntType s) (n : Int) : IsIntType (tAndLiteral s n) := by
  cases hs <;> rw [tAndLiteral] <;> split_ifs <;> constructor

theorem isIntType_tModLiteral (hs : IsIntType s) {n : Int} (hn : 0 < n) :
    IsIntType (tModLiteral s n) := by
  unfold tModLiteral
  rw [if_neg (by omega), if_neg (by omega)]
  cases hs <;> dsimp only <;> split_ifs <;> constructor

end Types

/-! ## What it means to be right -/

/-- A shift by a negative amount has no value. -/
def Meaningful : BinaryOp → Int → Prop
  | .shiftLeft, y | .shiftRight, y => 0 ≤ y
  | _, _ => True

/-- The outcome of an operator on the literals `x` and `y` is a diagnostic or
    right: the exact value, in range of its type if it has one.  An expression is
    left as it is only if the operator has no meaning on integers. -/
def Correct (op : BinaryOp) (x y : Int) : Evaluated → Prop
  | .error _ => True
  | .intLiteral w v => Meaningful op y ∧ exactBinary op x y = some v ∧
      (w ≠ none → InRange (inferIntLiteralType w v) v)
  | .boolLiteral c => exactBinary op x y = some (if c then 1 else 0)
  | .unchanged => exactBinary op x y = none
  | .floatLiteral _ | .undefined => False

/-- The literal that `evalBinary` builds for a result. -/
def resultLiteral (op : BinaryOp) (a b : Exp) (v : Int) : Evaluated :=
  if isUntypedIntLiteral a && isUntypedIntLiteral b then untypedIntLiteral v
  else typedIntLiteral (inferBinaryOp op a b) v

theorem evalBinary_literals {op : BinaryOp} {a b : Exp} {x y : Int} (ha : IntOperand a)
    (hb : IntOperand b) (hx : fromIntegralConstexpr a = some x)
    (hy : fromIntegralConstexpr b = some y) :
    evalBinary op a b = evalBinaryInts (resultLiteral op a b) x y op := by
  obtain ⟨t, w, hsa, hwa⟩ := exists_stripEnumValue hx
  obtain ⟨t', w', hsb, hwb⟩ := exists_stripEnumValue hy
  rw [evalBinary, tResolved_of_isIntType ha.isIntType, tResolved_of_isIntType hb.isIntType, hsa,
    hsb]
  simp only [Bool.and_self, if_true, hwa, hwb]
  congr 1
  funext v
  rw [resultLiteral]
  split <;> rfl

section Binary

variable {op : BinaryOp} {a b : Exp} {x y v : Int}

/-- A result literal is right if the value is and fits the inferred type. -/
theorem correct_resultLiteral (hmean : Meaningful op y) (hexact : exactBinary op x y = some v)
    (hrange : IsIntType (inferBinaryOp op a b) ∧ InRange (inferBinaryOp op a b) v) :
    Correct op x y (resultLiteral op a b v) := by
  unfold resultLiteral
  split
  · exact ⟨hmean, hexact, fun h => absurd rfl h⟩
  · obtain ⟨w, hw, htype⟩ := typedIntLiteral_of_isIntType hrange.1 v
    rw [hw]
    exact ⟨hmean, hexact, fun _ => htype ▸ hrange.2⟩

theorem correct_untyped (huntyped : (isUntypedIntLiteral a && isUntypedIntLiteral b) = true)
    (hmean : Meaningful op y) (hexact : exactBinary op x y = some v) :
    Correct op x y (resultLiteral op a b v) := by
  rw [resultLiteral, if_pos huntyped]
  exact ⟨hmean, hexact, fun h => absurd rfl h⟩

/-- If a typed result literal is right, its value fits the inferred type. -/
theorem inRange_of_correct (htyped : (isUntypedIntLiteral a && isUntypedIntLiteral b) = false)
    (ht : IsIntType (inferBinaryOp op a b)) (h : Correct op x y (resultLiteral op a b v)) :
    InRange (inferBinaryOp op a b) v := by
  rw [resultLiteral, htyped, if_neg Bool.false_ne_true] at h
  obtain ⟨w, hw, htype⟩ := typedIntLiteral_of_isIntType ht v
  rw [hw] at h
  exact htype ▸ h.2.2 (Option.some_ne_none w)

/-- If a typed result literal is right, the inferred type is not an error. -/
theorem not_error_of_correct (htyped : (isUntypedIntLiteral a && isUntypedIntLiteral b) = false)
    {e : String} (ht : inferBinaryOp op a b = .error e) :
    ¬ Correct op x y (resultLiteral op a b v) := by
  rw [resultLiteral, htyped, if_neg Bool.false_ne_true, ht]
  exact id

/-- The operators that are right on all literals. -/
def AlwaysFits : BinaryOp → Prop
  | .add | .sub | .mul | .lutMul | .bitwiseAnd | .bitwiseOr | .bitwiseXor => True
  | _ => False

theorem isIntType_inferBinaryOp (ha : IntOperand a) (hb : IntOperand b) (hop : AlwaysFits op) :
    IsIntType (inferBinaryOp op a b) := by
  have hta := ha.isIntType
  have htb := hb.isIntType
  cases op with
  | add => exact isIntType_tAdd hta htb
  | sub => exact isIntType_tSub hta htb
  | lutMul => exact isIntType_tMul hta htb
  | bitwiseOr | bitwiseXor => exact isIntType_tBitwiseOr hta htb
  | mul =>
      rw [inferBinaryOp]
      split_ifs
      · exact isIntType_tMulLiteral hta _
      · exact isIntType_tMulLiteral htb _
      · exact isIntType_tMul hta htb
  | bitwiseAnd =>
      rw [inferBinaryOp]
      split_ifs
      · exact isIntType_tAndLiteral hta _
      · exact isIntType_tAndLiteral htb _
      · exact isIntType_tBitwiseAnd hta htb
  | _ => exact absurd hop id

/-- The condition under which an operator on two integer literals is evaluated
    correctly. -/
def Evaluable (op : BinaryOp) (a b : Exp) (x y : Int) : Prop :=
  match op with
  | .div => y = 0 ∨ (isUntypedIntLiteral a && isUntypedIntLiteral b) = true ∨
      (0 < y ∧ ((∃ k : Nat, y = 2 ^ k) ∨ NarrowDividend (typeOfOperand a) y ∨
        SmallDividend (typeOfOperand a) y x))
  | .mod => y = 0 ∨ (isUntypedIntLiteral a && isUntypedIntLiteral b) = true ∨ 0 < y
  | .shiftLeft => 0 ≤ y ∧ (y < 2 ^ 63 ∨ (x = 0 ∧ 0 ≤ wrapInt y))
  | .shiftRight => 0 ≤ y ∧ (y < 2 ^ 63 ∨ (0 ≤ wrapInt y ∧ Within (wrapInt y).toNat x))
  | _ => True

theorem takes_self {e : Exp} (h : fromIntegralConstexpr e = some x) : Takes e x :=
  (takes_literal h).mpr rfl

theorem correct_of_alwaysFits (ha : IntOperand a) (hb : IntOperand b)
    (hx : fromIntegralConstexpr a = some x) (hy : fromIntegralConstexpr b = some y)
    (hop : AlwaysFits op) (hexact : exactBinary op x y = some v) :
    Correct op x y (resultLiteral op a b v) := by
  have hint := isIntType_inferBinaryOp ha hb hop
  have hmean : Meaningful op y := by
    cases op <;> trivial
  have hallowed : Allowed op y := by
    cases op <;> trivial
  have hnever : NeverOverflows op a b := neverOverflows_of_ne ha hb
    (by rintro rfl; exact hop) (by rintro rfl; exact hop) (by rintro rfl; exact hop)
  rcases hnever x y v (takes_self hx) (takes_self hy) hallowed hexact with herr | hin
  · rw [not_tIsError hint] at herr
    cases herr
  · exact correct_resultLiteral hmean hexact ⟨hint, hin⟩

theorem correct_div_iff (ha : IntOperand a) (hb : IntOperand b)
    (hx : fromIntegralConstexpr a = some x) (hy : fromIntegralConstexpr b = some y) :
    Correct .div x y (evalBinary .div a b) ↔ Evaluable .div a b x y := by
  have hta := ha.isIntType
  have hxr := ha.inRange x hx
  rw [evalBinary_literals ha hb hx hy, evalBinaryInts]
  by_cases hzero : y = 0
  · rw [if_neg (not_not.mpr hzero)]
    exact ⟨fun _ => .inl hzero, fun _ => trivial⟩
  rw [if_pos hzero]
  by_cases huntyped : (isUntypedIntLiteral a && isUntypedIntLiteral b) = true
  · exact ⟨fun _ => .inr (.inl huntyped), fun _ => correct_untyped huntyped trivial rfl⟩
  have htyped := Bool.eq_false_iff.mpr huntyped
  rcases lt_or_gt_of_ne hzero with hneg | hpos
  · have herr : inferBinaryOp .div a b = .error "Division with negative denominator is undefined" := by
      rw [inferBinaryOp_div_literal hy, tDivLiteral, hta.tIsInt, if_neg (by decide),
        if_neg hzero, if_pos hneg]
    refine ⟨fun h => absurd h (not_error_of_correct htyped herr), ?_⟩
    rintro (h | h | ⟨h, -⟩)
    · exact absurd h hzero
    · exact absurd h huntyped
    · omega
  · have hinfer := inferBinaryOp_div_literal (a := a) hy
    have hint : IsIntType (inferBinaryOp .div a b) := by
      rw [hinfer, tDivLiteral_of_pos hta hpos]
      exact isIntType_tNarrowInt hta _
    have hfits : InRange (inferBinaryOp .div a b) (x.tdiv y) ↔
        (∃ k : Nat, y = 2 ^ k) ∨ NarrowDividend (typeOfOperand a) y ∨
          SmallDividend (typeOfOperand a) y x := by
      rw [hinfer]
      by_cases hnarrow : NarrowDividend (typeOfOperand a) y
      · exact ⟨fun _ => .inr (.inl hnarrow),
          fun _ => inRange_tDivLiteral_of_narrow hta hxr hpos hnarrow⟩
      · have hiff := inRange_tDivLiteral_iff hta hxr hpos hnarrow
        refine ⟨fun h => .inr (.inr (hiff.mp h)), ?_⟩
        rintro (⟨k, rfl⟩ | h | h)
        · exact inRange_tDivLiteral_two_pow hta hxr k
        · exact absurd h hnarrow
        · exact hiff.mpr h
    constructor
    · intro h
      exact .inr (.inr ⟨hpos, hfits.mp (inRange_of_correct htyped hint h)⟩)
    · rintro (h | h | ⟨-, h⟩)
      · exact absurd h hzero
      · exact absurd h huntyped
      · exact correct_resultLiteral trivial rfl ⟨hint, hfits.mpr h⟩

theorem correct_mod_iff (ha : IntOperand a) (hb : IntOperand b)
    (hx : fromIntegralConstexpr a = some x) (hy : fromIntegralConstexpr b = some y) :
    Correct .mod x y (evalBinary .mod a b) ↔ Evaluable .mod a b x y := by
  have hta := ha.isIntType
  have hinfer : inferBinaryOp .mod a b = tModLiteral (typeOfOperand a) y := by
    rw [inferBinaryOp, if_pos ((isIntLiteral_iff b).mpr ⟨y, hy⟩), tBinaryOpLiteral, hy]
    rfl
  rw [evalBinary_literals ha hb hx hy, evalBinaryInts]
  by_cases hzero : y = 0
  · rw [if_neg (not_not.mpr hzero)]
    exact ⟨fun _ => .inl hzero, fun _ => trivial⟩
  rw [if_pos hzero]
  by_cases huntyped : (isUntypedIntLiteral a && isUntypedIntLiteral b) = true
  · exact ⟨fun _ => .inr (.inl huntyped), fun _ => correct_untyped huntyped trivial rfl⟩
  have htyped := Bool.eq_false_iff.mpr huntyped
  rcases lt_or_gt_of_ne hzero with hneg | hpos
  · have herr : inferBinaryOp .mod a b =
        .error "Remainder with negative denominator is undefined" := by
      rw [hinfer]
      unfold tModLiteral
      rw [if_neg hzero, if_pos hneg]
    refine ⟨fun h => absurd h (not_error_of_correct htyped herr), ?_⟩
    rintro (h | h | h)
    · exact absurd h hzero
    · exact absurd h huntyped
    · omega
  · refine ⟨fun _ => .inr (.inr hpos), fun _ => correct_resultLiteral trivial rfl ?_⟩
    rw [hinfer]
    exact ⟨isIntType_tModLiteral hta hpos, inRange_tModLiteral hta (ha.inRange x hx) hpos⟩

/-- A result literal that is right is the exact value of a meaningful operation. -/
theorem exact_of_correct (h : Correct op x y (resultLiteral op a b v)) :
    Meaningful op y ∧ exactBinary op x y = some v := by
  unfold resultLiteral at h
  split at h
  · exact ⟨h.1, h.2.1⟩
  · unfold typedIntLiteral at h
    split at h
    · exact ⟨h.1, h.2.1⟩
    · exact absurd h id

theorem correct_shiftLeft_iff (ha : IntOperand a) (hb : IntOperand b)
    (hx : fromIntegralConstexpr a = some x) (hy : fromIntegralConstexpr b = some y) :
    Correct .shiftLeft x y (evalBinary .shiftLeft a b) ↔ Evaluable .shiftLeft a b x y := by
  have hta := ha.isIntType
  have hinfer := inferBinaryOp_shiftLeft_literal (a := a) hy
  have hint : IsIntType (inferBinaryOp .shiftLeft a b) := by
    rw [hinfer, tShiftLLiteral, if_pos hta.tIsInt]
    exact isIntType_tWidenInt hta _
  rw [evalBinary_literals ha hb hx hy, evalBinaryInts, shiftResult]
  constructor
  · intro h
    split at h
    · exact absurd h id
    next hwrap =>
    obtain ⟨hy0, hexact⟩ := exact_of_correct h
    have hy0 : 0 ≤ y := hy0
    refine ⟨hy0, (lt_or_ge y (2 ^ 63)).imp id fun hge => ⟨?_, not_lt.mp hwrap⟩⟩
    -- two different powers of two
    have hle := wrapInt_le_sub hge
    have hval : x * 2 ^ y.toNat = x * 2 ^ (wrapInt y).toNat := Option.some.inj hexact
    by_contra hx0
    have hpow := mul_left_cancel₀ hx0 hval
    have hexp := Nat.pow_right_injective (le_refl 2) (by exact_mod_cast hpow)
    omega
  · rintro ⟨hy0, hlt | ⟨rfl, hwrap⟩⟩
    · rw [wrapInt_eq hy0 hlt, if_neg (not_lt.mpr hy0)]
      refine correct_resultLiteral hy0 rfl ⟨hint, ?_⟩
      rw [hinfer]
      exact inRange_tShiftLLiteral hta (ha.inRange x hx) hy0 hlt
    · rw [if_neg (not_lt.mpr hwrap), zero_mul]
      refine correct_resultLiteral hy0 (by rw [exactBinary, zero_mul]) ⟨hint, ?_⟩
      rw [hinfer, inRange_zero_tShiftLLiteral hta]
      have := ha.width_pos
      omega

theorem correct_shiftRight_iff (ha : IntOperand a) (hb : IntOperand b)
    (hx : fromIntegralConstexpr a = some x) (hy : fromIntegralConstexpr b = some y) :
    Correct .shiftRight x y (evalBinary .shiftRight a b) ↔ Evaluable .shiftRight a b x y := by
  have hta := ha.isIntType
  have hinfer : inferBinaryOp .shiftRight a b = tShiftRLiteral (typeOfOperand a) (wrapInt y) := by
    rw [inferBinaryOp, if_pos ((isIntLiteral_iff b).mpr ⟨y, hy⟩), tBinaryOpLiteral, hy]
    rfl
  have hint : IsIntType (inferBinaryOp .shiftRight a b) := by
    rw [hinfer, tShiftRLiteral, if_pos hta.tIsInt]
    exact isIntType_tNarrowInt hta _
  have hfits : 0 ≤ y → InRange (inferBinaryOp .shiftRight a b) (x / 2 ^ y.toNat) := fun hy0 => by
    rw [hinfer]
    exact inRange_tShiftRLiteral hta (ha.inRange x hx) hy0
  rw [evalBinary_literals ha hb hx hy, evalBinaryInts, shiftResult]
  constructor
  · intro h
    split at h
    · exact absurd h id
    next hwrap =>
    obtain ⟨hy0, hexact⟩ := exact_of_correct h
    have hy0 : 0 ≤ y := hy0
    refine ⟨hy0, (lt_or_ge y (2 ^ 63)).imp id fun hge => ⟨not_lt.mp hwrap, ?_⟩⟩
    have hle := wrapInt_le_sub hge
    have hval : x / 2 ^ y.toNat = x / 2 ^ (wrapInt y).toNat := Option.some.inj hexact
    exact (ediv_two_pow_eq_iff (show (wrapInt y).toNat < y.toNat by omega)).mp hval.symm
  · rintro ⟨hy0, hlt | ⟨hwrap, hwithin⟩⟩
    · rw [wrapInt_eq hy0 hlt, if_neg (not_lt.mpr hy0)]
      exact correct_resultLiteral hy0 rfl ⟨hint, hfits hy0⟩
    · rw [if_neg (not_lt.mpr hwrap)]
      have hsame : x / 2 ^ (wrapInt y).toNat = x / 2 ^ y.toNat := by
        rcases (wrapInt_le hy0).eq_or_lt with heq | hne
        · rw [heq]
        · exact (ediv_two_pow_eq_iff (by omega)).mpr hwithin
      rw [hsame]
      exact correct_resultLiteral hy0 rfl ⟨hint, hfits hy0⟩

/-- An operator on two integer literals is evaluated correctly iff `Evaluable`
    says so. -/
theorem correct_iff (op : BinaryOp) (ha : IntOperand a) (hb : IntOperand b)
    (hx : fromIntegralConstexpr a = some x) (hy : fromIntegralConstexpr b = some y) :
    Correct op x y (evalBinary op a b) ↔ Evaluable op a b x y := by
  have heval : evalBinary op a b = evalBinaryInts (resultLiteral op a b) x y op :=
    evalBinary_literals ha hb hx hy
  cases op with
  | div => exact correct_div_iff ha hb hx hy
  | mod => exact correct_mod_iff ha hb hx hy
  | shiftLeft => exact correct_shiftLeft_iff ha hb hx hy
  | shiftRight => exact correct_shiftRight_iff ha hb hx hy
  | add | sub | mul | lutMul | bitwiseAnd | bitwiseOr | bitwiseXor =>
      refine ⟨fun _ => trivial, fun _ => ?_⟩
      rw [heval]
      exact correct_of_alwaysFits ha hb hx hy trivial rfl
  | and | or | xor =>
      refine ⟨fun _ => trivial, fun _ => ?_⟩
      rw [heval]
      rfl
  | equal | notEqual | greater | greaterEqual | less | lessEqual =>
      refine ⟨fun _ => trivial, fun _ => ?_⟩
      rw [heval]
      simp [Correct, evalBinaryInts, exactBinary]

end Binary

/-! ## Unary operators -/

/-- An integer literal with the type that inference notes on it. -/
def literalExp (w : Option LiteralType) (x : Int) : Exp :=
  .intLiteral (inferIntLiteralType w x) w x

theorem isIntType_literal (w : Option LiteralType) (x : Int) :
    IsIntType (inferIntLiteralType w x) := by
  match w with
  | none => exact isIntType_inferIntLiteralType x
  | some ⟨.signedLiteral, n⟩ => exact .signed n
  | some ⟨.unsignedLiteral, n⟩ => exact .unsigned n

theorem typeOfOperand_literalExp (w : Option LiteralType) (x : Int) :
    typeOfOperand (literalExp w x) = inferIntLiteralType w x := by
  have hint := isIntType_literal w x
  show typeOfOperand.go (inferIntLiteralType w x) = _
  generalize inferIntLiteralType w x = t at hint ⊢
  cases hint <;> rfl

/-- Two values of a type that are congruent modulo its width are equal. -/
theorem truncateInt_of_inRange {w v : Int} (hv : InRange (.signed w) v) : truncateInt w v = v := by
  obtain ⟨⟨hw, hlo, hhi⟩, hmod⟩ := truncateInt_spec hv.1 v
  obtain ⟨-, hlo', hhi'⟩ := hv
  have hpow : (2 : Int) ^ w.toNat = 2 * 2 ^ (w - 1).toNat := by
    rw [← pow_succ']
    congr 1
    omega
  obtain ⟨k, hk⟩ := hmod.dvd
  rw [hpow] at hk
  have hk0 : k = 0 := by
    have hp := two_pow_pos (w - 1).toNat
    rcases lt_trichotomy k 0 with h | h | h
    · nlinarith
    · exact h
    · nlinarith
  rw [hk0, mul_zero] at hk
  omega

theorem truncateUInt_lnot {w v : Int} (hv : InRange (.unsigned w) v) :
    truncateUInt w (Int.lnot v) = 2 ^ w.toNat - 1 - v := by
  obtain ⟨-, hlo, hhi⟩ := hv
  rw [truncateUInt_eq, lnot_eq]
  have hstep := Int.add_mul_emod_self_left (-v - 1) (2 ^ w.toNat) 1
  rw [← hstep, Int.emod_eq_of_lt (by omega) (by omega)]
  ring

/-- The outcome of a unary operator on a literal: the exact value, in range of
    its type if it has one. -/
def CorrectUnary (op : UnaryOp) (e : Exp) (x : Int) : Evaluated → Prop
  | .intLiteral w v => exactUnary op e x = some v ∧
      (w ≠ none → InRange (inferIntLiteralType w v) v)
  | _ => False

theorem correctUnary_literal {op : UnaryOp} {w : Option LiteralType} {x v : Int}
    (he : IntOperand (literalExp w x)) (hexact : exactUnary op (literalExp w x) x = some v)
    (hint : IsIntType (inferUnaryOp op (literalExp w x))) :
    CorrectUnary op (literalExp w x) x ((if isUntypedIntLiteral (literalExp w x) then
      untypedIntLiteral else typedIntLiteral (inferUnaryOp op (literalExp w x))) v) := by
  have hin := inferUnaryOp_inRange he ((takes_literal rfl).mpr rfl) hexact
  split
  · exact ⟨hexact, fun h => absurd rfl h⟩
  · obtain ⟨w', hw', htype⟩ := typedIntLiteral_of_isIntType hint v
    rw [hw']
    exact ⟨hexact, fun _ => htype ▸ hin⟩

theorem correctUnary_neg {w : Option LiteralType} {x : Int} (he : IntOperand (literalExp w x))
    (resolved : Bool) :
    CorrectUnary .neg (literalExp w x) x (evalUnary .neg (literalExp w x) resolved) := by
  refine correctUnary_literal he rfl ?_
  rw [inferUnaryOp, if_pos ((isIntLiteral_iff _).mpr ⟨x, rfl⟩)]
  exact isIntType_tSuper he.isIntType (isIntType_inferIntLiteralType _)

/-- Inversion truncates to the width of the inferred type, which loses nothing
    but the copies of the sign of an unsigned operand. -/
theorem correctUnary_invert {w : Option LiteralType} {x : Int}
    (he : IntOperand (literalExp w x)) :
    CorrectUnary .invert (literalExp w x) x (evalUnary .invert (literalExp w x) true) := by
  have hxr := he.inRange x rfl
  rw [typeOfOperand_literalExp] at hxr
  match w with
  | some ⟨.signedLiteral, n⟩ =>
      have hsame : truncateInt n (Int.lnot x) = Int.lnot x := truncateInt_of_inRange
        (inRange_signed (within_lnot hxr.within_signed) (by have := hxr.1; omega))
      show CorrectUnary _ _ _ (typedIntLiteral (.signed n) (truncateInt n (Int.lnot x)))
      rw [hsame]
      exact correctUnary_literal he rfl (.signed n)
  | some ⟨.unsignedLiteral, n⟩ =>
      show CorrectUnary _ _ _ (typedIntLiteral (.unsigned n) (truncateUInt n (Int.lnot x)))
      rw [truncateUInt_lnot hxr]
      exact correctUnary_literal he rfl (.unsigned n)
  | none =>
      have hint := isIntType_inferIntLiteralType x
      obtain ⟨n, hn⟩ : ∃ n, tSigned (inferIntLiteralType none x) = .signed n := by
        generalize inferIntLiteralType none x = t at hint ⊢
        cases hint <;> exact ⟨_, rfl⟩
      have hrange := inRange_tInvert_tSigned hint hxr
      have henum : tIsEnum (inferIntLiteralType none x) = false := by
        generalize inferIntLiteralType none x = t at hint ⊢
        cases hint <;> rfl
      have heval : evalUnary .invert (literalExp none x) true =
          untypedIntLiteral (truncateInt n (Int.lnot x)) := by
        simp only [evalUnary, literalExp, Exp.typeOf, henum, hn]
        rfl
      rw [hn] at hrange
      rw [heval, truncateInt_of_inRange hrange]
      exact ⟨rfl, fun h => absurd rfl h⟩

/-! ## Casts and constants -/

/-- A cast to an integer type and the read of a constant of that type reduce the
    value to the type's width. -/
structure ReducesTo (t : Ty) (x : Int) (outcome : Evaluated) : Prop where
  signed : ∀ w, tIsSigned t = true → tWidth t = some w →
    outcome = .intLiteral (some ⟨.signedLiteral, w⟩) (truncateInt w x)
  unsigned : ∀ w, tIsSigned t = false → tIsUnsigned t = true → tWidth t = some w →
    outcome = .intLiteral (some ⟨.unsignedLiteral, w⟩) (truncateUInt w x)

theorem reducesTo_evalCast {t : Ty} {e : Exp} {x : Int} (hx : fromIntegralConstexpr e = some x) :
    ReducesTo t x (evalCast t e) := by
  constructor
  · intro w hs hw
    rw [evalCast, hx, Option.bind_some, castIntegralConstexpr, if_pos hs, typedIntLiteral, hw]
    simp only [hs, if_true, Option.getD_some]
  · intro w hs hu hw
    rw [evalCast, hx, Option.bind_some, castIntegralConstexpr, hs, if_neg Bool.false_ne_true,
      if_pos hu, typedIntLiteral, hw]
    simp only [hs, Bool.false_eq_true, if_false, Option.getD_some]

theorem evalNamedConst_eq {t : Ty} {e : Exp} {x : Int} (hx : fromIntegralConstexpr e = some x)
    (ht : tIsInt t = true) : evalNamedConst t e = evalCast t e := by
  rw [evalNamedConst, ht, (isIntLiteral_iff e).mpr ⟨x, hx⟩]
  rfl

/-- Constant evaluation: an operator on two integer literals is right iff
    `Evaluable` says so; negation and inversion of a literal are always right;
    casts and reads of constants give the value of the target type that is
    congruent to the literal. -/
theorem evaluateConstexpr_correct_iff (op : BinaryOp) (a b : Exp) (x y : Int) (ha : IntOperand a)
    (hb : IntOperand b) (hx : fromIntegralConstexpr a = some x)
    (hy : fromIntegralConstexpr b = some y) :
    (Correct op x y (evalBinary op a b) ↔ Evaluable op a b x y) ∧
    (∀ (op : UnaryOp) (w : Option LiteralType) (x : Int), op = .neg ∨ op = .invert →
      IntOperand (literalExp w x) →
      CorrectUnary op (literalExp w x) x (evalUnary op (literalExp w x) true)) ∧
    (∀ (t : Ty) (e : Exp) (x : Int), fromIntegralConstexpr e = some x → tIsInt t = true →
      ReducesTo t x (evalCast t e) ∧ ReducesTo t x (evalNamedConst t e)) ∧
    (∀ w x : Int, 0 < w →
      (InRange (.signed w) (truncateInt w x) ∧ truncateInt w x ≡ x [ZMOD 2 ^ w.toNat]) ∧
      InRange (.unsigned w) (truncateUInt w x) ∧ truncateUInt w x ≡ x [ZMOD 2 ^ w.toNat]) := by
  refine ⟨correct_iff op ha hb hx hy, ?_, ?_, ?_⟩
  · rintro op w x (rfl | rfl) he
    · exact correctUnary_neg he true
    · exact correctUnary_invert he
  · intro t e x hx ht
    refine ⟨reducesTo_evalCast hx, ?_⟩
    rw [evalNamedConst_eq hx ht]
    exact reducesTo_evalCast hx
  · exact fun w x hw => ⟨truncateInt_spec hw x, truncateUInt_spec hw x⟩

/-- The literal `x` of type `uint4`. -/
def uint4Literal (x : Int) : Exp := literalExp (some ⟨.unsignedLiteral, 4⟩) x

theorem intOperand_uint4Literal {x : Int} (hx : InRange (.unsigned 4) x) :
    IntOperand (uint4Literal x) :=
  ⟨.inl ⟨4, rfl⟩, show (0 : Int) < 4 by decide, show (4 : Int) < 2 ^ 63 by decide,
    fun n hn => by cases hn; exact hx⟩

/-- `12u4 / 4u4` is evaluated correctly. -/
theorem evaluateConstexpr_correct_div_four :
    Correct .div 12 4 (evalBinary .div (uint4Literal 12) (uint4Literal 4)) :=
  (evaluateConstexpr_correct_iff .div (uint4Literal 12) (uint4Literal 4) 12 4
    (intOperand_uint4Literal ⟨by decide, by decide, by decide⟩)
    (intOperand_uint4Literal ⟨by decide, by decide, by decide⟩) rfl rfl).1.mpr
    (.inr (.inr ⟨by decide, .inl ⟨2, by decide⟩⟩))

/-- `15u4 / 3u4` gives the literal 5 the type `uint2`, which does not hold it. -/
theorem evalBinary_div_three :
    IntOperand (uint4Literal 15) ∧ IntOperand (uint4Literal 3) ∧
      evalBinary .div (uint4Literal 15) (uint4Literal 3) =
        .intLiteral (some ⟨.unsignedLiteral, 2⟩) 5 ∧
      ¬ Correct .div 15 3 (evalBinary .div (uint4Literal 15) (uint4Literal 3)) := by
  have heval : evalBinary .div (uint4Literal 15) (uint4Literal 3) =
      .intLiteral (some ⟨.unsignedLiteral, 2⟩) 5 := by decide
  refine ⟨intOperand_uint4Literal ⟨by decide, by decide, by decide⟩,
    intOperand_uint4Literal ⟨by decide, by decide, by decide⟩, heval, ?_⟩
  rw [heval]
  rintro ⟨-, -, h⟩
  exact absurd (h (by decide)).2.2 (by decide)

end Kanagawa.Frontend
