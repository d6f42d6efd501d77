/-
  Kanagawa.Generate.KnownOperand

  Binary operators of which one operand is known (`BinaryOpNode::TryGetKnownValueImpl`).

  The value of one operand may decide the result: zero for an `And`, ones for an
  `Or`.  The rule for `Or` tests for ones up to any bit, and compares the widths of
  the operands but not their signs; `OnesDecide` says when the result is decided.
-/
import Kanagawa.Arith.Typed
import Kanagawa.Frontend.InferSound
import Kanagawa.Generate.Multiply

namespace Kanagawa.Generate

open IR IR.Emission Lib.Bits Lib.TwosComplement

/-! ## Types -/

/-- The types of the operands that may be known as integers. -/
inductive ScalarType where
  | bool
  | leaf (type : LeafType)
  deriving Repr, DecidableEq

namespace ScalarType

/-- `GetBitWidth`. -/
def width : ScalarType → Nat
  | .bool => 1
  | .leaf type => type.width

/-- `IsSignedLeafType`. -/
def signed : ScalarType → Bool
  | .bool => false
  | .leaf type => type.signed

/-- The type as the front end has it. -/
def ty : ScalarType → Frontend.Ty
  | .bool => .boolean
  | .leaf ⟨true, width⟩ => .signed width
  | .leaf ⟨false, width⟩ => .unsigned width

end ScalarType

/-- The operator as the front end has it. -/
def frontEndOp : BinaryOpType → Frontend.BinaryOp
  | .add => .add
  | .sub => .sub
  | .mul => .mul
  | .lutMul => .lutMul
  | .div => .div
  | .mod => .mod
  | .and => .bitwiseAnd
  | .logicalAnd => .and
  | .or => .bitwiseOr
  | .logicalOr => .or
  | .xor => .bitwiseXor
  | .logicalXor => .xor
  | .shl => .shiftLeft
  | .shr => .shiftRight
  | .eq => .equal
  | .ne => .notEqual
  | .gt => .greater
  | .ge => .greaterEqual
  | .lt => .less
  | .le => .lessEqual

/-- The type of the expression is the one that the front end infers from its operands. -/
def HasFrontEndType (opType : BinaryOpType) (lhsType rhsType type : ScalarType) : Prop :=
  ∃ lhs rhs, Frontend.typeOfOperand lhs = lhsType.ty ∧ Frontend.typeOfOperand rhs = rhsType.ty ∧
    Frontend.inferBinaryOp (frontEndOp opType) lhs rhs = type.ty

/-! ## `TryGetKnownValueImpl` -/

/-- `IsNegative`, on the types that a shift has. -/
def isNegative (value : Nat) : ScalarType → Except Failure Bool
  | .bool => .ok false
  | .leaf type => if type.signed then bitTest value (type.width - 1) else .ok false

/-- `allOnes`: ones up to some bit. -/
def AllOnes (knownValue : Nat) : Prop := (knownValue + 1) &&& knownValue = 0 ∧ knownValue ≠ 0

instance (knownValue : Nat) : Decidable (AllOnes knownValue) := inferInstanceAs (Decidable (_ ∧ _))

/-- Only one value is known. -/
def tryGetKnownOperand (opType : BinaryOpType) (knownValue knownWidth unknownWidth : Nat) :
    Option Nat :=
  match opType with
  | .logicalOr => if knownValue = 1 then some 1 else none
  | .logicalAnd => if knownValue = 0 then some 0 else none
  | .and => if knownWidth ≥ unknownWidth ∧ knownValue = 0 then some 0 else none
  | .or => if knownWidth ≥ unknownWidth ∧ AllOnes knownValue then some knownValue else none
  | _ => none

/-- `BinaryOpNode::TryGetKnownValueImpl`, with the values known of the operands. -/
def tryGetKnownValueImpl (opType : BinaryOpType) (lhsType rhsType type : ScalarType) :
    Option Nat → Option Nat → Except Failure (Option Nat)
  | some knownValue, none =>
      .ok (tryGetKnownOperand opType knownValue lhsType.width rhsType.width)
  | none, some knownValue =>
      .ok (tryGetKnownOperand opType knownValue rhsType.width lhsType.width)
  | some lhsValue, some rhsValue => do
      match opType with
      | .shl | .shr =>
          if ← isNegative rhsValue rhsType then throw (.runtimeError "Negative shift amount")
      | .div => if rhsValue = 0 then throw (.runtimeError "Divide by zero")
      | _ => pure ()
      let value ← implementBinaryOp ⟨lhsValue, lhsType.width⟩ ⟨rhsValue, rhsType.width⟩ type.width
        lhsType.signed rhsType.signed opType
      return some value
  | none, none => .ok none

/-! ## The value at run time -/

/-- What the operation that `GenerateIR` emits by default leaves in a register of the type of the
    expression, given the bits of the operands. -/
def runTimeValue (opType : BinaryOpType) (lhsType rhsType type : ScalarType)
    (lhsBits rhsBits : Nat) : Option Nat :=
  combinationalResult (.binaryOp opType)
    (binaryOperation opType (.register 0) lhsType.signed (.register 1)
      rhsType.signed).signExtendSourceMask
    type.width [⟨lhsBits, lhsType.width⟩, ⟨rhsBits, rhsType.width⟩]

/-- The side of the operand that is known. -/
inductive Side where
  | lhs
  | rhs
  deriving Repr, DecidableEq

/-- The operand that is known and the other one, by side. -/
def Side.order {α : Type} (side : Side) (known unknown : α) : α × α :=
  match side with
  | .lhs => (known, unknown)
  | .rhs => (unknown, known)

/-- Whenever a value is returned, the expression has it at run time for every value of the operand
    that is not known. -/
def KnownOperandSound (opType : BinaryOpType) (side : Side) (knownType unknownType type : ScalarType)
    (knownValue : Nat) : Prop :=
  ∀ result,
    tryGetKnownValueImpl opType (side.order knownType unknownType).1
        (side.order knownType unknownType).2 type (side.order (some knownValue) none).1
        (side.order (some knownValue) none).2 = .ok (some result) →
    ∀ bits, bits < 2 ^ unknownType.width →
      runTimeValue opType (side.order knownType unknownType).1 (side.order knownType unknownType).2
        type (side.order knownValue bits).1 (side.order knownValue bits).2 = some result

/-- The ones of the known operand decide the result of `Or`: those of a signed operand that are
    its sign, or those that cover an unsigned operand.  A sign is not enough if the type of the
    result is wider than the known operand. -/
def OnesDecide (knownType unknownType : ScalarType) (knownValue : Nat) : Prop :=
  if unknownType.signed then
    knownType.signed = true ∧ knownValue + 1 = 2 ^ knownType.width
  else
    2 ^ unknownType.width ≤ knownValue + 1 ∧
      ¬ (knownType.signed = true ∧ unknownType.width = knownType.width)

/-! ## When the result is decided -/

theorem runTimeValue_eq {opType : BinaryOpType} (lhsType rhsType type : ScalarType)
    (lhsBits rhsBits : Nat)
    (hdef : opType.Defined (Literal.denote ⟨rhsBits, rhsType.width⟩ rhsType.signed)) :
    runTimeValue opType lhsType rhsType type lhsBits rhsBits
      = some (truncate (exactBinaryOp opType
          (Literal.denote ⟨lhsBits, lhsType.width⟩ lhsType.signed)
          (Literal.denote ⟨rhsBits, rhsType.width⟩ rhsType.signed)) type.width) := by
  obtain ⟨h0, h1⟩ := pushOperand_mask (.binaryOp opType) (.register 0) (.register 1)
    lhsType.signed rhsType.signed
  rw [runTimeValue, combinationalResult, binaryOperation, h0, h1, if_pos hdef]

/-- The side does not matter for an operator that commutes. -/
theorem runTimeValue_order {opType : BinaryOpType} (hdef : ∀ b, opType.Defined b)
    (hcomm : ∀ a b, exactBinaryOp opType a b = exactBinaryOp opType b a) (side : Side)
    (knownType unknownType type : ScalarType) (knownValue bits : Nat) :
    runTimeValue opType (side.order knownType unknownType).1 (side.order knownType unknownType).2
        type (side.order knownValue bits).1 (side.order knownValue bits).2
      = some (truncate (exactBinaryOp opType
          (Literal.denote ⟨knownValue, knownType.width⟩ knownType.signed)
          (Literal.denote ⟨bits, unknownType.width⟩ unknownType.signed)) type.width) := by
  cases side with
  | lhs => exact runTimeValue_eq _ _ _ _ _ (hdef _)
  | rhs =>
      rw [hcomm]
      exact runTimeValue_eq _ _ _ _ _ (hdef _)

theorem tryGetKnownValueImpl_order (opType : BinaryOpType) (side : Side)
    (knownType unknownType type : ScalarType) (knownValue : Nat) :
    tryGetKnownValueImpl opType (side.order knownType unknownType).1
        (side.order knownType unknownType).2 type (side.order (some knownValue) none).1
        (side.order (some knownValue) none).2
      = .ok (tryGetKnownOperand opType knownValue knownType.width unknownType.width) := by
  cases side <;> rfl

theorem allOnes_iff {knownValue : Nat} :
    AllOnes knownValue ↔ ∃ m, 0 < m ∧ knownValue + 1 = 2 ^ m := by
  have hpow : (knownValue + 1) &&& knownValue = 0 ↔ (knownValue + 1).isPowerOfTwo := by
    have h := @Nat.and_sub_one_eq_zero_iff_isPowerOfTwo (knownValue + 1) (by omega)
    rwa [Nat.add_sub_cancel] at h
  rw [AllOnes, hpow]
  constructor
  · rintro ⟨⟨m, hm⟩, hne⟩
    refine ⟨m, Nat.pos_of_ne_zero ?_, hm⟩
    rintro rfl
    rw [pow_zero] at hm
    omega
  · rintro ⟨m, hpos, hm⟩
    refine ⟨⟨m, hm⟩, ?_⟩
    rintro rfl
    have htwo : 2 ≤ 2 ^ m := Nat.le_self_pow hpos.ne' 2
    omega

/-! ### The type of `Or` -/

/-- The width of the result of `Or`: for a mix of signs the unsigned operand is one bit wider. -/
def orWidth (x y : ScalarType) : Nat :=
  max (x.width + if y.signed && !x.signed then 1 else 0)
    (y.width + if x.signed && !y.signed then 1 else 0)

theorem orWidth_comm (x y : ScalarType) : orWidth x y = orWidth y x := Nat.max_comm _ _

theorem ty_ne_error (type : ScalarType) (message : String) : Frontend.Ty.error message ≠ type.ty := by
  obtain _ | ⟨_ | _, _⟩ := type <;> exact nofun

theorem width_of_ty_unsigned {type : ScalarType} {w : Nat}
    (h : Frontend.Ty.unsigned w = type.ty) : type.width = w := by
  obtain _ | ⟨_ | _, z⟩ := type
  · exact nomatch h
  · injection h with hwidth
    exact_mod_cast hwidth.symm
  · exact nomatch h

theorem width_of_ty_signed {type : ScalarType} {w : Nat} (h : Frontend.Ty.signed w = type.ty) :
    type.width = w := by
  obtain _ | ⟨_ | _, z⟩ := type
  · exact nomatch h
  · exact nomatch h
  · injection h with hwidth
    exact_mod_cast hwidth.symm

theorem width_of_hasFrontEndType {lhsType rhsType type : ScalarType}
    (h : HasFrontEndType .or lhsType rhsType type) : type.width = orWidth lhsType rhsType := by
  obtain ⟨a, b, ha, hb, hinfer⟩ := h
  have hor : Frontend.tBitwiseOr lhsType.ty rhsType.ty = type.ty := by
    rw [← ha, ← hb, ← hinfer]
    rfl
  -- An operand that is no integer has an error for its type
  match lhsType, rhsType, hor with
  | .bool, _, hor => exact absurd hor (ty_ne_error type _)
  | .leaf ⟨false, _⟩, .bool, hor => exact absurd hor (ty_ne_error type _)
  | .leaf ⟨true, _⟩, .bool, hor => exact absurd hor (ty_ne_error type _)
  | .leaf ⟨false, x⟩, .leaf ⟨false, y⟩, hor =>
      have hsuper : Frontend.tSuper (.unsigned x) (.unsigned y) = type.ty := hor
      rw [Frontend.tSuper_unsigned, ← Nat.cast_max] at hsuper
      exact width_of_ty_unsigned hsuper
  | .leaf ⟨false, x⟩, .leaf ⟨true, y⟩, hor =>
      have hsuper : Frontend.tSuper (.unsigned x) (.signed y) = type.ty := hor
      rw [Frontend.tSuper_unsigned_signed, ← Nat.cast_succ, ← Nat.cast_max] at hsuper
      exact width_of_ty_signed hsuper
  | .leaf ⟨true, x⟩, .leaf ⟨false, y⟩, hor =>
      have hsuper : Frontend.tSuper (.signed x) (.unsigned y) = type.ty := hor
      rw [Frontend.tSuper_signed_unsigned, ← Nat.cast_succ, ← Nat.cast_max] at hsuper
      exact width_of_ty_signed hsuper
  | .leaf ⟨true, x⟩, .leaf ⟨true, y⟩, hor =>
      have hsuper : Frontend.tSuper (.signed x) (.signed y) = type.ty := hor
      rw [Frontend.tSuper_signed, ← Nat.cast_max] at hsuper
      exact width_of_ty_signed hsuper

/-! ### The rules -/

/-- A literal of ones is minus one, or it is not negative. -/
theorem denote_ones {v m w : Nat} {signed : Bool} (hv : v < 2 ^ w) (hw : 0 < w)
    (hm : v + 1 = 2 ^ m) :
    (signed = true ∧ m = w ∧ Literal.denote ⟨v, w⟩ signed = -1) ∨
      (m ≤ w ∧ (signed = true → m < w) ∧ Literal.denote ⟨v, w⟩ signed = v) := by
  have hle : m ≤ w := by
    by_contra hlt
    have hpow : 2 ^ (w + 1) ≤ 2 ^ m := Nat.pow_le_pow_right (by decide) (by omega)
    rw [Nat.pow_succ] at hpow
    omega
  have hbit : Literal.negative ⟨v, w⟩ signed = (signed && decide (w - 1 < m)) := by
    have hvalue : v = 2 ^ m - 1 := by omega
    rw [Literal.negative, hvalue, Nat.testBit_two_pow_sub_one]
  cases hneg : Literal.negative ⟨v, w⟩ signed with
  | true =>
      rw [hneg] at hbit
      obtain ⟨hs, hlt⟩ := Bool.and_eq_true_iff.mp hbit.symm
      have hmw : m = w := by
        have := of_decide_eq_true hlt
        omega
      refine .inl ⟨hs, hmw, ?_⟩
      rw [Literal.denote_of_negative hneg]
      have hcast : (v : Int) + 1 = 2 ^ w := by
        rw [← hmw]
        exact_mod_cast hm
      show (v : Int) - 2 ^ w = -1
      omega
  | false =>
      refine .inr ⟨hle, ?_, Literal.denote_of_not_negative hneg⟩
      intro hs
      rw [hneg, hs, Bool.true_and] at hbit
      have := of_decide_eq_false hbit.symm
      omega

/-- Ones cover exactly the numbers below them. -/
theorem ones_lor_iff {v m u : Nat} (hm : v + 1 = 2 ^ m) :
    (∀ x, x < 2 ^ u → v ||| x = v) ↔ 2 ^ u ≤ v + 1 := by
  have hpos := Nat.two_pow_pos u
  constructor
  · intro h
    have hlast := h (2 ^ u - 1) (by omega)
    have hle : 2 ^ u - 1 ≤ v ||| (2 ^ u - 1) := Nat.right_le_or
    omega
  · intro h x hx
    have hlt : v ||| x < 2 ^ m := Nat.or_lt_two_pow (by omega) (by omega)
    have hle : v ≤ v ||| x := Nat.left_le_or
    omega

theorem truncate_neg_one_eq_iff {v m w : Nat} (hm : v + 1 = 2 ^ m) :
    truncate (-1) w = v ↔ w = m := by
  have hvalue : truncate (-1) w = 2 ^ w - 1 := by
    rw [truncate, land_comm, land_neg_one, ← natCast_two_pow_sub_one, Int.toNat_natCast]
  rw [hvalue]
  constructor
  · intro h
    have hpos := Nat.two_pow_pos w
    exact Nat.pow_right_injective (le_refl 2) (by show 2 ^ w = 2 ^ m; omega)
  · rintro rfl
    omega

/-- The rule for `Or` holds when the ones decide the result. -/
theorem or_decided_iff {knownType unknownType : ScalarType} {v m : Nat}
    (hv : v < 2 ^ knownType.width) (hknown : 0 < knownType.width) (hunknown : 0 < unknownType.width)
    (hle : unknownType.width ≤ knownType.width) (hm : v + 1 = 2 ^ m) :
    (∀ bits, bits < 2 ^ unknownType.width →
        truncate (Int.lor (Literal.denote ⟨v, knownType.width⟩ knownType.signed)
          (Literal.denote ⟨bits, unknownType.width⟩ unknownType.signed))
          (orWidth knownType unknownType) = v) ↔
      OnesDecide knownType unknownType v := by
  rcases @denote_ones _ _ _ knownType.signed hv hknown hm with
    ⟨hs, rfl, hdenote⟩ | ⟨hmle, hmlt, hdenote⟩
  · -- The known operand is minus one: its sign has to reach the top of the result
    rw [hs] at hdenote
    simp only [hdenote, lor_comm (-1), lor_neg_one, truncate_neg_one_eq_iff hm, OnesDecide, orWidth,
      hs, Bool.not_true, Bool.and_false, Bool.true_and, Bool.false_eq_true, if_false, Nat.add_zero,
      true_and]
    cases hu : unknownType.signed with
    | true =>
        simp only [Bool.not_true, Bool.false_eq_true, if_false, if_true, hm]
        constructor
        · intro _
          trivial
        · intro _ _ _
          omega
    | false =>
        have hpow : 2 ^ unknownType.width ≤ 2 ^ knownType.width :=
          Nat.pow_le_pow_right (by decide) hle
        simp only [Bool.not_false, Bool.false_eq_true, if_false, if_true, hm, hpow, true_and]
        constructor
        · intro h
          have hmax := h 0 (Nat.two_pow_pos _)
          omega
        · intro h _ _
          omega
  · cases hu : unknownType.signed with
    | true =>
        -- Minus one decides the result instead
        apply iff_of_false
        · intro h
          have hlast := h (2 ^ unknownType.width - 1) (by
            have := Nat.two_pow_pos unknownType.width
            omega)
          have hminus : Literal.denote ⟨2 ^ unknownType.width - 1, unknownType.width⟩ true
              = -1 := by
            have hone : 2 ^ unknownType.width - 1 + 1 = 2 ^ unknownType.width :=
              Nat.sub_add_cancel Nat.one_le_two_pow
            have hlt : 2 ^ unknownType.width - 1 < 2 ^ unknownType.width := by omega
            rcases @denote_ones _ _ _ true hlt hunknown hone with ⟨-, -, h⟩ | ⟨-, h, -⟩
            · exact h
            · exact absurd (h rfl) (Nat.lt_irrefl _)
          rw [hminus, lor_neg_one, truncate_neg_one_eq_iff hm, orWidth, hu] at hlast
          cases hs : knownType.signed with
          | true =>
              have := hmlt hs
              simp only [hs, Bool.not_true, Bool.and_false, Bool.false_eq_true, if_false] at hlast
              omega
          | false =>
              simp only [hs, Bool.not_false, Bool.and_true, if_true] at hlast
              omega
        · rw [OnesDecide, if_pos hu]
          rintro ⟨hs, hones⟩
          have hwidth : m = knownType.width :=
            Nat.pow_right_injective (le_refl 2) (hm.symm.trans hones)
          exact absurd (hmlt hs) (by omega)
    | false =>
        have hwide : knownType.width ≤ orWidth knownType unknownType :=
          (Nat.le_add_right _ _).trans (Nat.le_max_left _ _)
        have hvalue : ∀ bits, bits < 2 ^ unknownType.width →
            truncate (Int.lor (Literal.denote ⟨v, knownType.width⟩ knownType.signed)
              (Literal.denote ⟨bits, unknownType.width⟩ false)) (orWidth knownType unknownType)
              = v ||| bits := by
          intro bits hbits
          rw [hdenote, denote_false]
          show truncate ((v ||| bits : Nat) : Int) _ = _
          have hpow : 2 ^ knownType.width ≤ 2 ^ orWidth knownType unknownType :=
            Nat.pow_le_pow_right (by decide) hwide
          have hpow' : 2 ^ unknownType.width ≤ 2 ^ knownType.width :=
            Nat.pow_le_pow_right (by decide) hle
          exact truncate_natCast_of_lt (Nat.or_lt_two_pow (by omega) (by omega))
        have hcover : (∀ bits, bits < 2 ^ unknownType.width →
            truncate (Int.lor (Literal.denote ⟨v, knownType.width⟩ knownType.signed)
              (Literal.denote ⟨bits, unknownType.width⟩ false)) (orWidth knownType unknownType)
              = v) ↔ 2 ^ unknownType.width ≤ v + 1 := by
          rw [← ones_lor_iff hm]
          exact forall₂_congr fun bits hbits => by rw [hvalue bits hbits]
        rw [hcover, OnesDecide, if_neg (by rw [hu]; decide)]
        constructor
        · intro h
          refine ⟨h, ?_⟩
          rintro ⟨hs, hwidth⟩
          rw [hm] at h
          have hum := (Nat.pow_le_pow_iff_right (by decide)).mp h
          have := hmlt hs
          omega
        · exact fun h => h.1

theorem denote_zero (w : Nat) (signed : Bool) : Literal.denote ⟨0, w⟩ signed = 0 := by
  apply Literal.denote_of_not_negative
  rw [Literal.negative, Nat.zero_testBit, Bool.and_false]

/-- The rule for zero. -/
theorem runTimeValue_zero {opType : BinaryOpType} (hand : opType = .and ∨ opType = .logicalAnd)
    (side : Side) (knownType unknownType type : ScalarType) (bits : Nat) :
    runTimeValue opType (side.order knownType unknownType).1 (side.order knownType unknownType).2
        type (side.order 0 bits).1 (side.order 0 bits).2 = some 0 := by
  have hexact : exactBinaryOp opType = Int.land := by
    rcases hand with rfl | rfl <;> rfl
  have hdef : ∀ b, opType.Defined b := by
    rcases hand with rfl | rfl <;> exact fun _ => trivial
  have hzero : ∀ b : Int, Int.land 0 b = 0 := by
    intro b
    cases b <;> simp [Int.land, Nat.ldiff]
  rw [runTimeValue_order hdef (by rw [hexact]; exact land_comm), hexact, denote_zero, hzero]
  exact congrArg some (truncate_natCast_of_lt (Nat.two_pow_pos _))

theorem bool_of_hasFrontEndType {lhsType rhsType type : ScalarType}
    (h : HasFrontEndType .logicalOr lhsType rhsType type) :
    lhsType = .bool ∧ rhsType = .bool ∧ type = .bool := by
  obtain ⟨a, b, ha, hb, hinfer⟩ := h
  have hlogical : Frontend.tLogical lhsType.ty rhsType.ty = type.ty := by
    rw [← ha, ← hb, ← hinfer]
    rfl
  match lhsType, rhsType, type, hlogical with
  | .bool, .bool, .bool, _ => exact ⟨rfl, rfl, rfl⟩
  | .bool, .bool, .leaf ⟨true, _⟩, h => exact nomatch h
  | .bool, .bool, .leaf ⟨false, _⟩, h => exact nomatch h
  | .bool, .leaf ⟨true, _⟩, _, h => exact absurd h (ty_ne_error _ _)
  | .bool, .leaf ⟨false, _⟩, _, h => exact absurd h (ty_ne_error _ _)
  | .leaf ⟨true, _⟩, _, _, h => exact absurd h (ty_ne_error _ _)
  | .leaf ⟨false, _⟩, _, _, h => exact absurd h (ty_ne_error _ _)

/-- The rule for `true`. -/
theorem runTimeValue_one (side : Side) {bits : Nat} (hbits : bits < 2) :
    runTimeValue .logicalOr .bool .bool .bool (side.order 1 bits).1 (side.order 1 bits).2
      = some 1 := by
  cases side <;> match bits, hbits with
  | 0, _ => rfl
  | 1, _ => rfl

/-- With one operand known, a returned value is the one at run time for every value of the other
    operand, except that the rule for `Or` needs ones that decide the result. -/
theorem knownOperand_sound_iff (opType : BinaryOpType) (side : Side)
    (knownType unknownType type : ScalarType)
    (htype : HasFrontEndType opType (side.order knownType unknownType).1
      (side.order knownType unknownType).2 type)
    (knownValue : Nat) (hvalue : knownValue < 2 ^ knownType.width) (hknown : 0 < knownType.width)
    (hunknown : 0 < unknownType.width) :
    KnownOperandSound opType side knownType unknownType type knownValue ↔
      (opType = .or → unknownType.width ≤ knownType.width → AllOnes knownValue →
        OnesDecide knownType unknownType knownValue) := by
  rw [KnownOperandSound]
  simp only [tryGetKnownValueImpl_order, Except.ok.injEq]
  cases opType with
  | or =>
      have hwidth : type.width = orWidth knownType unknownType := by
        rw [width_of_hasFrontEndType htype]
        cases side with
        | lhs => rfl
        | rhs => exact orWidth_comm _ _
      simp only [@runTimeValue_order .or (fun _ => trivial) lor_comm, hwidth,
        tryGetKnownOperand, Option.some.injEq, true_implies]
      by_cases hrule : unknownType.width ≤ knownType.width ∧ AllOnes knownValue
      · obtain ⟨m, -, hm⟩ := allOnes_iff.mp hrule.2
        have hdecided := or_decided_iff hvalue hknown hunknown hrule.1 hm
        constructor
        · intro h _ _
          apply hdecided.mp
          exact h knownValue (if_pos hrule)
        · intro h result hresult
          rw [if_pos hrule] at hresult
          cases hresult
          exact hdecided.mpr (h hrule.1 hrule.2)
      · apply iff_of_true
        · intro result hresult
          rw [if_neg hrule] at hresult
          exact nomatch hresult
        · intro hle hones
          exact absurd ⟨hle, hones⟩ hrule
  | and =>
      apply iff_of_true _ nofun
      intro result hresult bits _
      rw [tryGetKnownOperand] at hresult
      split at hresult
      · next hrule =>
        cases hresult
        rw [hrule.2]
        exact runTimeValue_zero (.inl rfl) side knownType unknownType type bits
      · exact nomatch hresult
  | logicalAnd =>
      apply iff_of_true _ nofun
      intro result hresult bits _
      rw [tryGetKnownOperand] at hresult
      split at hresult
      · next hrule =>
        cases hresult
        rw [hrule]
        exact runTimeValue_zero (.inr rfl) side knownType unknownType type bits
      · exact nomatch hresult
  | logicalOr =>
      obtain ⟨rfl, rfl, rfl⟩ : knownType = .bool ∧ unknownType = .bool ∧ type = .bool := by
        obtain ⟨hl, hr, ht⟩ := bool_of_hasFrontEndType htype
        cases side with
        | lhs => exact ⟨hl, hr, ht⟩
        | rhs => exact ⟨hr, hl, ht⟩
      apply iff_of_true _ nofun
      intro result hresult bits hbits
      rw [tryGetKnownOperand] at hresult
      split at hresult
      · next hrule =>
        cases hresult
        rw [hrule]
        have hone := runTimeValue_one side hbits
        cases side <;> exact hone
      · exact nomatch hresult
  | _ => exact iff_of_true nofun nofun

theorem hasFrontEndType_or_unsigned (x y : Nat) :
    HasFrontEndType .or (.leaf ⟨false, x⟩) (.leaf ⟨false, y⟩) (.leaf ⟨false, max x y⟩) := by
  refine ⟨.other (.unsigned x), .other (.unsigned y), rfl, rfl, ?_⟩
  show Frontend.tSuper (.unsigned x) (.unsigned y) = .unsigned (max x y : Nat)
  rw [Frontend.tSuper_unsigned, Nat.cast_max]

/-- The theorem at eight ones and four unknown bits. -/
theorem knownOperand_sound_eight_ones :
    KnownOperandSound .or .lhs (.leaf ⟨false, 8⟩) (.leaf ⟨false, 4⟩) (.leaf ⟨false, 8⟩) 255 :=
  (knownOperand_sound_iff .or .lhs (.leaf ⟨false, 8⟩) (.leaf ⟨false, 4⟩) (.leaf ⟨false, 8⟩)
    (hasFrontEndType_or_unsigned 8 4) 255 (by decide) (by decide) (by decide)).mpr
    fun _ _ _ => ⟨by decide, nofun⟩

/-- `cast<uint8>(1) | x` is not one for every `x`. -/
theorem knownOperand_one_or_uint8 :
    HasFrontEndType .or (.leaf ⟨false, 8⟩) (.leaf ⟨false, 8⟩) (.leaf ⟨false, 8⟩) ∧
      ¬ KnownOperandSound .or .lhs (.leaf ⟨false, 8⟩) (.leaf ⟨false, 8⟩) (.leaf ⟨false, 8⟩) 1 := by
  refine ⟨hasFrontEndType_or_unsigned 8 8, ?_⟩
  intro h
  have hthree : runTimeValue .or (.leaf ⟨false, 8⟩) (.leaf ⟨false, 8⟩) (.leaf ⟨false, 8⟩) 1 2
      = some 3 := by decide +kernel
  have hone := h 1 rfl 2 (by decide)
  have heq := hone.symm.trans hthree
  exact absurd heq (by decide)

end Kanagawa.Generate
