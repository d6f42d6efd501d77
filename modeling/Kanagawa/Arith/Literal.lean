/-
  Kanagawa.Arith.Literal

  The compiler's reference arithmetic on literals (`parse_tree.cpp`, `pch.h`).

  A literal is a bit pattern with a width.  The pattern is an `mp_int`, which
  never goes below zero except for the difference formed by `Sub`, so patterns
  are natural numbers here and only the result of a binary operator is an
  integer before it is truncated.  Assertions are active in release builds
  (`ship_assert.h` redirects them to a function that throws), so every function
  that can hit one returns `Except`.
-/
import Mathlib

namespace Kanagawa

/-! ## Failures -/

/-- The ways in which the compiler gives up: a failed `assert`, and the two
    exception types thrown by the arithmetic. -/
inductive Failure where
  | assertion
  | overflowError (what : String)
  | runtimeError (what : String)
  deriving Repr, DecidableEq

/-- `std::numeric_limits<size_t>::max()`. -/
def sizeMax : Nat := 2 ^ 64 - 1

/-- `std::numeric_limits<uint32_t>::max()`. -/
def uint32Max : Nat := 2 ^ 32 - 1

/-- `assert`: throws when the condition is false. -/
def assert (condition : Bool) : Except Failure Unit :=
  if condition then .ok () else .error .assertion

theorem assert_of_true {condition : Bool} (h : condition = true) : assert condition = .ok () := by
  rw [h]
  rfl

theorem of_assert {condition : Bool} {u : Unit} (h : assert condition = .ok u) :
    condition = true := by
  rw [assert] at h
  split at h
  next hcondition => exact hcondition
  next => exact nomatch h

/-- `MpToSizeT`. -/
def mpToSizeT (input : Nat) : Except Failure Nat :=
  if input > sizeMax then .error (.runtimeError "Value too large to convert to integer")
  else .ok input

/-- `bit_test`: the index is asserted to fit an unsigned 32-bit integer. -/
def bitTest (input bitIndex : Nat) : Except Failure Bool :=
  if bitIndex ≤ uint32Max then .ok (input.testBit bitIndex) else .error .assertion

/-- `bit_set`: the index is asserted to fit an unsigned 32-bit integer. -/
def bitSet (val bitIndex : Nat) : Except Failure Nat :=
  if bitIndex ≤ uint32Max then .ok (val ||| 2 ^ bitIndex) else .error .assertion

/-! ## Literals -/

/-- `struct Literal`. -/
structure Literal where
  value : Nat
  width : Nat
  deriving Repr, DecidableEq

/-- A literal whose value fits its width; widths are positive `size_t` values. -/
structure Literal.WellFormed (l : Literal) : Prop where
  fits : l.value < 2 ^ l.width
  width_pos : 0 < l.width
  width_le : l.width ≤ sizeMax

/-- `ParseTreeUnaryOpType`. -/
inductive UnaryOpType where
  | invert
  | negate
  | logicalInvert
  deriving Repr, DecidableEq

/-- `ParseTreeBinaryOpType`. -/
inductive BinaryOpType where
  | add | sub | mul | lutMul | div | mod
  | and | logicalAnd | or | logicalOr | xor | logicalXor
  | shl | shr
  | eq | ne | gt | ge | lt | le
  deriving Repr, DecidableEq

/-! ## Widening and truncation -/

/-- `Truncate`: masks with `(1 << numBits) - 1`.  The argument may be negative,
    in which case the mask applies to its two's complement expansion. -/
def truncate (src : Int) (numBits : Nat) : Nat :=
  (Int.land src (2 ^ numBits - 1)).toNat

/-- `Widen`: copies the sign bit into the bits from the literal's width up to
    `dstWidth`.  The value is never truncated. -/
def widen (srcIn : Literal) (signExtend : Bool) (dstWidth : Nat) : Except Failure Nat := do
  assert (0 < srcIn.width)
  -- The sign bit is only looked at when the source is signed
  let extend ← if signExtend then bitTest srcIn.value (srcIn.width - 1) else .ok false
  if extend then
    (List.range' srcIn.width (dstWidth - srcIn.width)).foldlM bitSet srcIn.value
  else
    return srcIn.value

/-- `Resize`. -/
def resize (srcIn : Literal) (signExtend : Bool) (dstWidth : Nat) : Except Failure Nat := do
  return truncate (← widen srcIn signExtend dstWidth) dstWidth

/-! ## Operators -/

/-- The loop of `ImplementUnaryOp` that flips the low `intermediateWidth` bits. -/
def flipBits (src intermediateWidth : Nat) : Except Failure Nat :=
  (List.range intermediateWidth).foldlM
    (fun result i => do
      if !(← bitTest src i) then bitSet result i else return result) 0

/-- `ImplementUnaryOp`. -/
def implementUnaryOp (srcIn : Literal) (signExtendSrc : Bool) (type : UnaryOpType)
    (dstWidth : Nat) : Except Failure Nat := do
  -- Wide enough to behave as if the source had infinite width
  let intermediateWidth := max srcIn.width dstWidth + 1
  let src ← widen srcIn signExtendSrc intermediateWidth
  let flipped ← flipBits src intermediateWidth
  let result := match type with
    | .invert | .logicalInvert => flipped
    | .negate => flipped + 1
  return truncate result dstWidth

/-- `AbsLiteral`: the absolute value of a literal taken as a signed number. -/
def absLiteral (src : Literal) : Except Failure Nat := do
  if ← bitTest src.value (src.width - 1) then
    implementUnaryOp src true .negate (src.width + 1)
  else
    return src.value

/-- The width `ImplementBinaryOp` extends its sources to.  Only the shift right
    can wrap around `size_t`, as it adds the shift amount to the width. -/
def requiredSourceWidth (src0In src1In : Literal) (dstWidth : Nat) :
    BinaryOpType → Except Failure Nat
  | .shr => return (dstWidth + (← mpToSizeT src1In.value)) % 2 ^ 64
  | .eq | .ne | .gt | .ge | .lt | .le => return max src0In.width src1In.width
  | _ => return dstWidth

/-- A comparison of `ImplementBinaryOp`: raw patterns are compared when the
    signs agree, and the signs decide otherwise. -/
def compareSigned (src0Positive src1Positive : Bool) (samePositive sameNegative : Bool)
    (positiveNegative negativePositive : Int) : Int :=
  match src0Positive, src1Positive with
  | true, true => if samePositive then 1 else 0
  | true, false => positiveNegative
  | false, true => negativePositive
  | false, false => if sameNegative then 0 else 1

/-- `src0Positive` and `src1Positive` of `ImplementBinaryOp`. -/
def sourcePositive (srcIn : Literal) (signExtendSource : Bool) : Except Failure Bool :=
  if signExtendSource then (! ·) <$> bitTest srcIn.value (srcIn.width - 1) else .ok true

/-- The second `switch` of `ImplementBinaryOp`: the result before truncation, from
    the literals given and from their widened values `src0` and `src1`. -/
def binaryOpResult (src0In src1In : Literal) (dstWidth src0 src1 : Nat)
    (src0Positive src1Positive : Bool) : BinaryOpType → Except Failure Int
  | .add => .ok (src0 + src1)
  | .mul | .lutMul => .ok (src0 * src1)
  | .div =>
      if src1In.value = 0 then .error (.overflowError "Division by zero.")
      else if src0Positive then .ok (src0 / src1 : Nat)
      else do
        -- The absolute value can need one more bit than the source
        let negatedResult : Literal := ⟨(← absLiteral src0In) / src1, src0In.width + 1⟩
        return ← implementUnaryOp negatedResult false .negate dstWidth
  | .mod =>
      if src1In.value = 0 then .error (.overflowError "Division by zero.")
      else if src0Positive then .ok (src0 % src1 : Nat)
      else do
        let negatedResult : Literal := ⟨(← absLiteral src0In) % src1, src1In.width⟩
        return ← implementUnaryOp negatedResult false .negate dstWidth
  | .sub => .ok (src0 - src1)
  | .and | .logicalAnd => .ok (src0 &&& src1 : Nat)
  | .or | .logicalOr => .ok (src0 ||| src1 : Nat)
  | .xor | .logicalXor => .ok (src0 ^^^ src1 : Nat)
  | .shl => do
      assert src1Positive
      return (src0 <<< (← mpToSizeT src1) : Nat)
  | .shr => do
      assert src1Positive
      return (src0 >>> (← mpToSizeT src1) : Nat)
  | .eq => .ok (if src0 = src1 then 1 else 0)
  | .ne => .ok (if src0 ≠ src1 then 1 else 0)
  | .gt => .ok (compareSigned src0Positive src1Positive (src0 > src1) (src0 ≤ src1) 1 0)
  | .ge => .ok (compareSigned src0Positive src1Positive (src0 ≥ src1) (src0 < src1) 1 0)
  | .lt => .ok (compareSigned src0Positive src1Positive (src0 < src1) (src0 ≥ src1) 0 1)
  | .le => .ok (compareSigned src0Positive src1Positive (src0 ≤ src1) (src0 > src1) 0 1)

/-- `ImplementBinaryOp`. -/
def implementBinaryOp (src0In src1In : Literal) (dstWidth : Nat)
    (signExtendSource0 signExtendSource1 : Bool) (type : BinaryOpType) :
    Except Failure Nat := do
  assert (0 < src0In.width)
  assert (0 < src1In.width)
  assert (0 < dstWidth)
  let requiredWidth ← requiredSourceWidth src0In src1In dstWidth type
  let src0 ← widen src0In signExtendSource0 requiredWidth
  let src1 ← widen src1In signExtendSource1 requiredWidth
  let src0Positive ← sourcePositive src0In signExtendSource0
  let src1Positive ← sourcePositive src1In signExtendSource1
  let result ← binaryOpResult src0In src1In dstWidth src0 src1 src0Positive src1Positive type
  return truncate result dstWidth

end Kanagawa
