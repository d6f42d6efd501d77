/-
  Kanagawa.Frontend.PartialFold

  Operators with one literal operand (`evalBinaryInt` and `evalBinaryBool` in
  `Constexpr.hs`).

  Where one operand decides the result, `evaluateConstexpr` replaces the operator
  by a literal.  At run time both operands are extended to their common type.
  The extension of a negative operand sets the bits above its width, which the
  rule for the bitwise or does not look at.
-/
import Kanagawa.Frontend.ConstexprSound

namespace Kanagawa.Frontend

open Lib.TwosComplement Lib.Bits

/-! ## Run time -/

/-- The value of an integer type with the bits of a number. -/
def extendTo (t : Ty) (x : Int) : Int :=
  if tIsSigned t then truncateInt (widthOf t) x else truncateUInt (widthOf t) x

/-- What a bitwise operator gives on values of two types, extended to the common
    type. -/
def commonValue (op : BinaryOp) (s t : Ty) (x y : Int) : Option Int :=
  (exactBinary op (extendTo (tSuper s t) x) (extendTo (tSuper s t) y)).map
    (extendTo (tSuper s t))

/-- What a logical operator gives. -/
def logicalValue : BinaryOp → Bool → Bool → Option Bool
  | .or, x, y => some (x || y)
  | .and, x, y => some (x && y)
  | .xor, x, y => some (x ^^ y)
  | .equal, x, y => some (x == y)
  | .notEqual, x, y => some (x != y)
  | _, _, _ => none

theorem truncateUInt_of_inRange {w v : Int} (hv : InRange (.unsigned w) v) :
    truncateUInt w v = v := by
  rw [truncateUInt_eq, Int.emod_eq_of_lt hv.2.1 hv.2.2]

/-- A value of the type stays as it is. -/
theorem extendTo_of_inRange {t : Ty} (ht : IsIntType t) {v : Int} (hv : InRange t v) :
    extendTo t v = v := by
  cases ht with
  | unsigned w => exact truncateUInt_of_inRange hv
  | signed w => exact truncateInt_of_inRange hv

section Values

variable {s t : Ty} {x y : Int}

/-- An extended value is one of the type. -/
theorem inRange_extendTo (ht : IsIntType t) (hw : 0 < widthOf t) (x : Int) :
    InRange t (extendTo t x) := by
  cases ht with
  | unsigned w => exact (truncateUInt_spec hw x).1
  | signed w => exact (truncateInt_spec hw x).1

theorem widthOf_tSuper_pos (hs : IsIntType s) (ht : IsIntType t) (hw : 0 < widthOf s) :
    0 < widthOf (tSuper s t) := by
  cases hs <;> cases ht <;>
    simp only [tSuper_unsigned, tSuper_signed, tSuper_signed_unsigned, tSuper_unsigned_signed,
      widthOf] at hw ⊢ <;> omega

/-- The bitwise or of values of the common type is their exact one. -/
theorem commonValue_or (hs : IsIntType s) (ht : IsIntType t) (hx : InRange (tSuper s t) x)
    (hy : InRange (tSuper s t) y) :
    commonValue .bitwiseOr s t x y = some (Int.lor x y) := by
  have hsuper := isIntType_tSuper hs ht
  have hlor := inRange_tSuper Within.lor lor_nonneg hsuper hsuper hx hy
  have hself : tSuper (tSuper s t) (tSuper s t) = tSuper s t := by
    generalize tSuper s t = u at hsuper
    cases hsuper with
    | unsigned w => rw [tSuper_unsigned, max_self]
    | signed w => rw [tSuper_signed, max_self]
  rw [hself] at hlor
  rw [commonValue, extendTo_of_inRange hsuper hx, extendTo_of_inRange hsuper hy, exactBinary,
    Option.map_some, extendTo_of_inRange hsuper hlor]

/-- A bitwise and with zero is zero. -/
theorem commonValue_and_zero (hs : IsIntType s) (ht : IsIntType t) (hw : 0 < widthOf s) (x : Int) :
    commonValue .bitwiseAnd s t x 0 = some 0 := by
  have hsuper := isIntType_tSuper hs ht
  have hzero : InRange (tSuper s t) 0 := by
    have hpos := widthOf_tSuper_pos hs ht hw
    cases hsuper' : tSuper s t with
    | unsigned w =>
        rw [hsuper'] at hpos
        exact ⟨hpos, Int.le_refl 0, two_pow_pos _⟩
    | signed w =>
        rw [hsuper'] at hpos
        have := two_pow_pos (w - 1).toNat
        exact ⟨hpos, by omega, this⟩
    | _ =>
        rw [hsuper'] at hsuper
        cases hsuper
  have hland : ∀ z : Int, Int.land z 0 = 0 := fun z => by
    refine eq_of_testBit_eq fun j => ?_
    have hzero : Int.testBit 0 j = false := Nat.zero_testBit j
    rw [Int.testBit_land, hzero, Bool.and_false]
  rw [commonValue, extendTo_of_inRange hsuper hzero, exactBinary, Option.map_some, hland,
    extendTo_of_inRange hsuper hzero]

/-- The order of the operands makes no difference. -/
theorem commonValue_comm {op : BinaryOp} (hop : op = .bitwiseAnd ∨ op = .bitwiseOr)
    (hs : IsIntType s) (ht : IsIntType t) (x y : Int) :
    commonValue op s t x y = commonValue op t s y x := by
  rw [commonValue, commonValue, tSuper_comm hs ht]
  rcases hop with rfl | rfl
  · rw [exactBinary, exactBinary, land_comm]
  · have hlor : ∀ a b : Int, Int.lor a b = Int.lor b a := fun a b => by
      refine eq_of_testBit_eq fun j => ?_
      rw [Int.testBit_lor, Int.testBit_lor, Bool.or_comm]
    rw [exactBinary, exactBinary, hlor]

end Values

/-! ## The literal of a bitwise or -/

/-- The bits of a value of an unsigned type are below its width. -/
theorem testBit_of_unsigned {w x : Int} (hx : InRange (.unsigned w) x) {j : Nat}
    (hj : w.toNat ≤ j) : x.testBit j = false := by
  have hlt : x < 2 ^ j := hx.2.2.trans_le (two_pow_le hj)
  rw [testBit_eq_decide, Int.ediv_eq_zero_of_lt hx.2.1 hlt]
  rfl

/-- The low bits are all ones. -/
def LowBits (w y : Int) : Prop := ∀ j < w.toNat, y.testBit j = true

theorem lor_eq_of_unsigned {w x y : Int} (hx : InRange (.unsigned w) x) (hy : LowBits w y) :
    Int.lor x y = y := by
  refine eq_of_testBit_eq fun j => ?_
  rw [Int.testBit_lor]
  by_cases hj : j < w.toNat
  · rw [hy j hj, Bool.or_true]
  · rw [testBit_of_unsigned hx (Nat.le_of_not_lt hj), Bool.false_or]

theorem testBit_neg_one (j : Nat) : Int.testBit (-1) j = true := by
  show (!Nat.testBit 0 j) = true
  rw [Nat.zero_testBit]
  rfl

theorem lor_neg_one_left (y : Int) : Int.lor (-1) y = -1 := by
  refine eq_of_testBit_eq fun j => ?_
  rw [Int.testBit_lor, testBit_neg_one, Bool.true_or]

theorem lor_neg_one_right (x : Int) : Int.lor x (-1) = -1 := by
  refine eq_of_testBit_eq fun j => ?_
  rw [Int.testBit_lor, testBit_neg_one, Bool.or_true]

/-- A bitwise or with the literal of a fold is the literal for all values of the type, if they are
    not negative or all bits of the literal are ones. -/
theorem lor_eq_iff {t : Ty} (ht : IsIntType t) (hw : 0 < widthOf t) {y : Int}
    (hy : LowBits (widthOf t) y) :
    (∀ x, InRange t x → Int.lor x y = y) ↔ tIsUnsigned t = true ∨ y = -1 := by
  cases ht with
  | unsigned w => exact ⟨fun _ => .inl rfl, fun _ x hx => lor_eq_of_unsigned hx hy⟩
  | signed w =>
      have hw : 0 < w := hw
      constructor
      · intro h
        have hpos := two_pow_pos (w - 1).toNat
        have hone := h (-1) ⟨hw, by omega, by omega⟩
        rw [lor_neg_one_left] at hone
        exact .inr hone.symm
      · rintro (h | rfl) x _
        · exact absurd h Bool.false_ne_true
        · exact lor_neg_one_right x

/-! ## The folds -/

/-- The width of an integer type under `const` and instances. -/
theorem tWidth_of_tIsInt {t : Ty} (h : tIsInt t = true) :
    tWidth t = some (widthOf (typeOfOperand.go t)) := by
  induction t using typeOfOperand.go.induct with
  | case1 x t ih => exact absurd h Bool.false_ne_true
  | case2 t x args ih => exact ih h
  | case3 t ih => exact ih h
  | case4 t henum hinst hconst =>
      cases t with
      | unsigned w | signed w => rfl
      | enum x t => exact absurd rfl (henum x t)
      | inst t x args => exact absurd rfl (hinst t x args)
      | const t => exact absurd rfl (hconst t)
      | _ => exact absurd h Bool.false_ne_true

/-- When the literal that replaces an operator on a value of type `s` and a literal of type `t` is
    right for all values: a bitwise or needs a literal that fits the common type, and a value that
    is not negative unless all bits of the literal are ones. -/
def FoldsRight (op : BinaryOp) (s t : Ty) (y : Int) : Prop :=
  op = .bitwiseAnd ∨ (InRange (tSuper s t) y ∧ (tIsUnsigned s = true ∨ y = -1))

/-- The folds of `evalBinaryInt`. -/
theorem evalBinaryInt_cases {x : Exp} {size : Option Int} {y : Int} {op : BinaryOp}
    {w : Option LiteralType} {v : Int} (h : evalBinaryInt x size y op = .intLiteral w v) :
    (op = .bitwiseAnd ∧ y = 0 ∧ v = 0) ∨
      (op = .bitwiseOr ∧ v = y ∧ LowBits (widthOf (typeOfOperand x)) y) := by
  unfold evalBinaryInt at h
  cases hint : tIsInt x.typeOf with
  | false =>
      rw [hint] at h
      exact nomatch h
  | true =>
      rw [hint] at h
      simp only [Bool.not_true, Bool.false_eq_true, if_false] at h
      rw [tWidth_of_tIsInt hint] at h
      cases op with
      | bitwiseAnd =>
          dsimp only at h
          split at h
          · next hfold =>
            cases h
            rw [Bool.and_eq_true, decide_eq_true_eq] at hfold
            exact .inl ⟨rfl, hfold.1, rfl⟩
          · exact nomatch h
      | bitwiseOr =>
          dsimp only at h
          split at h
          · next hfold =>
            cases h
            refine .inr ⟨rfl, rfl, fun j hj => ?_⟩
            exact List.all_eq_true.mp hfold j (List.mem_range.mpr hj)
          · exact nomatch h
      | _ => exact nomatch h

/-- The two orders of an operand and an integer literal. -/
theorem evalBinary_literal_right {op : BinaryOp} {t : Ty} {e : Exp} {y : Int}
    {w : Option LiteralType} {v : Int} (hy : fromIntegralConstexpr e = some y)
    (h : evalBinary op (.other t) e = .intLiteral w v) :
    ∃ size, evalBinaryInt (.other t) size y op = .intLiteral w v := by
  obtain ⟨t', w', hstrip, -⟩ := exists_stripEnumValue hy
  unfold evalBinary at h
  split at h
  · rw [hstrip] at h
    exact ⟨_, h⟩
  · exact nomatch h

theorem evalBinary_literal_left {op : BinaryOp} {t : Ty} {e : Exp} {y : Int}
    {w : Option LiteralType} {v : Int} (hy : fromIntegralConstexpr e = some y)
    (h : evalBinary op e (.other t) = .intLiteral w v) :
    ∃ size, evalBinaryInt (.other t) size y op = .intLiteral w v := by
  obtain ⟨t', w', hstrip, -⟩ := exists_stripEnumValue hy
  unfold evalBinary at h
  split at h
  · rw [hstrip] at h
    exact ⟨_, h⟩
  · exact nomatch h

/-- The folds of `evalBinaryBool`. -/
theorem evalBinaryBool_cases {x : Exp} {c v : Bool} {op : BinaryOp}
    (h : evalBinaryBool x c op = .boolLiteral v) :
    (op = .or ∧ c = true ∧ v = true) ∨ (op = .and ∧ c = false ∧ v = false) := by
  unfold evalBinaryBool at h
  split at h
  · exact nomatch h
  · split at h
    · cases h
      exact .inl ⟨rfl, rfl, rfl⟩
    · cases h
      exact .inr ⟨rfl, rfl, rfl⟩
    · exact nomatch h

theorem evalBinary_bool {op : BinaryOp} {s t : Ty} {c v : Bool}
    (h : evalBinary op (.other s) (.boolLiteral t c) = .boolLiteral v ∨
      evalBinary op (.boolLiteral t c) (.other s) = .boolLiteral v) :
    evalBinaryBool (.other s) c op = .boolLiteral v := by
  unfold evalBinary at h
  rcases h with h | h <;> split at h
  · exact h
  · exact nomatch h
  · exact h
  · exact nomatch h

/-- The literal of a fold is right for all values of the other operand exactly if `FoldsRight`. -/
theorem fold_correct_iff {op : BinaryOp} {t : Ty} {e : Exp} {size : Option Int} {y : Int}
    {w : Option LiteralType} {v : Int} (ht : IsIntType (typeOfOperand (.other t)))
    (hw : 0 < widthOf (typeOfOperand (.other t))) (he : IsIntType (typeOfOperand e))
    (h : evalBinaryInt (.other t) size y op = .intLiteral w v) :
    (∀ x, InRange (typeOfOperand (.other t)) x →
      commonValue op (typeOfOperand (.other t)) (typeOfOperand e) x y = some v) ↔
      FoldsRight op (typeOfOperand (.other t)) (typeOfOperand e) y := by
  rcases evalBinaryInt_cases h with ⟨rfl, rfl, rfl⟩ | ⟨rfl, rfl, hbits⟩
  · exact ⟨fun _ => .inl rfl, fun _ x _ => commonValue_and_zero ht he hw x⟩
  · have hsuper := isIntType_tSuper ht he
    have hor := lor_eq_iff ht hw hbits
    constructor
    · intro hall
      -- Zero is a value of the type, and the result is one of the common type
      have hin : InRange (tSuper (typeOfOperand (.other t)) (typeOfOperand e)) v := by
        have hzero := hall _ (inRange_extendTo ht hw 0)
        rw [commonValue, exactBinary, Option.map_some] at hzero
        rw [← Option.some.inj hzero]
        exact inRange_extendTo hsuper (widthOf_tSuper_pos ht he hw) _
      refine .inr ⟨hin, hor.mp fun x hx => ?_⟩
      have hvalue := hall x hx
      rw [commonValue_or ht he (inRange_tSuper_left ht he hx) hin] at hvalue
      exact Option.some.inj hvalue
    · rintro (hand | ⟨hin, hright⟩) x hx
      · cases hand
      · rw [commonValue_or ht he (inRange_tSuper_left ht he hx) hin, hor.mpr hright x hx]

/-- The literals that replace an operator with one literal operand.  An operator on an integer and
    an integer literal gives the value at run time, for all values of the integer, exactly if
    `FoldsRight`; an operator on truth values always does. -/
theorem partialFold_correct_iff (op : BinaryOp) (t : Ty) :
    (∀ (e : Exp) (y : Int) (w : Option LiteralType) (v : Int),
      IsIntType (typeOfOperand (.other t)) → 0 < widthOf (typeOfOperand (.other t)) →
      IsIntType (typeOfOperand e) → fromIntegralConstexpr e = some y →
      (evalBinary op (.other t) e = .intLiteral w v →
        ((∀ x, InRange (typeOfOperand (.other t)) x →
          commonValue op (typeOfOperand (.other t)) (typeOfOperand e) x y = some v) ↔
          FoldsRight op (typeOfOperand (.other t)) (typeOfOperand e) y)) ∧
      (evalBinary op e (.other t) = .intLiteral w v →
        ((∀ x, InRange (typeOfOperand (.other t)) x →
          commonValue op (typeOfOperand e) (typeOfOperand (.other t)) y x = some v) ↔
          FoldsRight op (typeOfOperand (.other t)) (typeOfOperand e) y))) ∧
    (∀ (s : Ty) (c v : Bool),
      (evalBinary op (.other t) (.boolLiteral s c) = .boolLiteral v →
        ∀ x, logicalValue op x c = some v) ∧
      (evalBinary op (.boolLiteral s c) (.other t) = .boolLiteral v →
        ∀ x, logicalValue op c x = some v)) := by
  refine ⟨fun e y w v ht hw he hy => ⟨fun h => ?_, fun h => ?_⟩,
    fun s c v => ⟨fun h x => ?_, fun h x => ?_⟩⟩
  · obtain ⟨size, hfold⟩ := evalBinary_literal_right hy h
    exact fold_correct_iff ht hw he hfold
  · obtain ⟨size, hfold⟩ := evalBinary_literal_left hy h
    have hop : op = .bitwiseAnd ∨ op = .bitwiseOr :=
      (evalBinaryInt_cases hfold).imp (fun h => h.1) (fun h => h.1)
    rw [← fold_correct_iff ht hw he hfold]
    simp only [commonValue_comm hop ht he]
  · rcases evalBinaryBool_cases (evalBinary_bool (.inl h)) with ⟨rfl, rfl, rfl⟩ | ⟨rfl, rfl, rfl⟩
    · rw [logicalValue, Bool.or_true]
    · rw [logicalValue, Bool.and_false]
  · rcases evalBinaryBool_cases (evalBinary_bool (.inr h)) with ⟨rfl, rfl, rfl⟩ | ⟨rfl, rfl, rfl⟩
    · rw [logicalValue, Bool.true_or]
    · rw [logicalValue, Bool.false_and]

/-- A `uint4` or the literal 15 is 15, whatever the value is. -/
theorem partialFold_correct_uint4 :
    evalBinary .bitwiseOr (.other (.unsigned 4)) (uint4Literal 15) = .intLiteral none 15 ∧
    ∀ x, InRange (.unsigned 4) x →
      commonValue .bitwiseOr (.unsigned 4) (.unsigned 4) x 15 = some 15 :=
  ⟨by decide,
    (((partialFold_correct_iff .bitwiseOr (.unsigned 4)).1 (uint4Literal 15) 15 none 15
      (.unsigned 4) (by decide) (.unsigned 4) rfl).1 (by decide)).mpr
      (.inr ⟨inRange_tSuper_right (.unsigned 4) (.unsigned 4) (t := .unsigned 4)
        ⟨by decide, by decide, by decide⟩, .inl rfl⟩)⟩

/-- An `int4` or the literal 15 is replaced by 15, but -1 or 15 is -1. -/
theorem partialFold_negative :
    evalBinary .bitwiseOr (.other (.signed 4)) (uint4Literal 15) = .intLiteral none 15 ∧
      InRange (.signed 4) (-1) ∧ InRange (.unsigned 4) 15 ∧
      commonValue .bitwiseOr (.signed 4) (.unsigned 4) (-1) 15 = some (-1) := by
  refine ⟨by decide, ⟨by decide, by decide, by decide⟩, ⟨by decide, by decide, by decide⟩, ?_⟩
  decide +kernel

end Kanagawa.Frontend
