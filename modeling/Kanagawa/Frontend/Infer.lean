/-
  Kanagawa.Frontend.Infer

  Type inference for operators (`Type.hs`, `Internal.hs`).

  Each operator has a rule that computes the width of its result from the
  widths of its operands.  When an operand is a literal, some operators use its
  value instead of its type, which gives a narrower result.  The literal rules
  of the shifts take the amount as an `Int`: the conversion wraps at 64 bits.
-/
import Kanagawa.Frontend.Subtype

namespace Kanagawa.Frontend

/-! ## Operators and expressions -/

/-- `BinaryOp`. -/
inductive BinaryOp where
  | add | sub | mul | lutMul | div | mod
  | bitwiseAnd | and
  | bitwiseOr | or
  | bitwiseXor | xor
  | shiftLeft | shiftRight
  | equal | notEqual | greater | greaterEqual | less | lessEqual
  deriving Repr, DecidableEq

/-- `UnaryOp`. -/
inductive UnaryOp where
  | invert | neg | not | bitSizeof | byteSizeof | clog2
  deriving Repr, DecidableEq

/-- `LiteralTypeSignedness`. -/
inductive LiteralTypeSignedness where
  | signedLiteral | unsignedLiteral
  deriving Repr, DecidableEq

/-- `LiteralType`. -/
structure LiteralType where
  literalSignedness : LiteralTypeSignedness
  literalWidth : Int
  deriving Repr, DecidableEq

/-- `NotedExp (Typed n) e`: an expression with the type noted at its root.
    Inference and the evaluation of operators ask only whether an expression is
    a literal or an enum constant; any other form is `other`. -/
inductive Exp where
  | intLiteral (noted : Ty) (w : Option LiteralType) (x : Int)
  | boolLiteral (noted : Ty) (x : Bool)
  | stringLiteral (noted : Ty) (x : String)
  | enumValue (noted : Ty) (name : QualifiedName) (value : Exp)
  | other (noted : Ty)

/-- `typeOf`. -/
def Exp.typeOf : Exp → Ty
  | .intLiteral t _ _ => t
  | .boolLiteral t _ => t
  | .stringLiteral t _ => t
  | .enumValue t _ _ => t
  | .other t => t

/-- `isIntLiteral`. -/
def isIntLiteral : Exp → Bool
  | .enumValue _ _ x => isIntLiteral x
  | .intLiteral _ _ _ => true
  | _ => false

/-- `isUntypedIntLiteral`. -/
def isUntypedIntLiteral : Exp → Bool
  | .enumValue _ _ x => isUntypedIntLiteral x
  | .intLiteral _ none _ => true
  | _ => false

/-- `fromIntegralConstexpr` at `Integer`. -/
def fromIntegralConstexpr : Exp → Option Int
  | .intLiteral _ _ x => some x
  | .enumValue _ _ x => fromIntegralConstexpr x
  | _ => none

/-- `fromIntegral` from `Integer` to `Int`. -/
def wrapInt (x : Int) : Int := Int.bmod x (2 ^ 64)

/-- `typeOfOperand`. -/
def typeOfOperand (e : Exp) : Ty := go e.typeOf
where
  go : Ty → Ty
    | .enum _ t => go t
    | .inst t _ _ => go t
    | .const t => go t
    | t => t

/-! ## Width arithmetic -/

/-- `integerLog2`, for positive arguments. -/
def integerLog2 (n : Int) : Int := n.toNat.log2

/-- `clog2`. -/
def clog2 (n : Int) : Int :=
  if Int.land n (n - 1) = 0 then integerLog2 n else integerLog2 n + 1

/-- `inferIntLiteralType`. -/
def inferIntLiteralType : Option LiteralType → Int → Ty
  | some ⟨.signedLiteral, w⟩, _ => .signed w
  | some ⟨.unsignedLiteral, w⟩, _ => .unsigned w
  | none, x =>
      if x = 0 then .unsigned 1
      else if x < 0 then .signed (1 + clog2 x.natAbs)
      else .unsigned (clog2 (x + 1))

/-- `tInvalidOperandsError`. -/
def tInvalidOperandsError (x y : Ty) : Ty :=
  .error ("Invalid operands to binary expression: `" ++ showPretty x ++ "` and `" ++
    showPretty y ++ "`")

/-- `tExpectedIntegerError`. -/
def tExpectedIntegerError (x : Ty) : Ty :=
  .error ("Invalid operand, expected an integer: `" ++ showPretty x ++ "`")

/-- `tSigned`. -/
def tSigned : Ty → Ty
  | .signed x => .signed x
  | .unsigned x => .signed (x + 1)
  | x => if !tResolved x then .unresolved else .error "Expected an integer"

/-- `tInvert`. -/
def tInvert (x : Ty) : Ty := if tIsInt x then x else tExpectedIntegerError x

/-- `tNeg`. -/
def tNeg : Ty → Ty
  | .float => .float
  | .signed x => .signed (x + 1)
  | .unsigned x => .signed (x + 1)
  | _ => .error "Expected an integer or a float operand"

/-- `tNot`. -/
def tNot : Ty → Ty
  | .boolean => .boolean
  | _ => .error "Expected a boolean operand"

/-- `tWidenInt`. -/
def tWidenInt : Ty → Int → Ty
  | .unsigned x, n => .unsigned (x + n)
  | .signed x, n => .signed (x + n)
  | x, _ => tExpectedIntegerError x

/-- `tNarrowInt`. -/
def tNarrowInt : Ty → Int → Ty
  | .unsigned x, n => .unsigned (max 1 (x - n))
  | .signed x, n => .signed (max 2 (x - n))
  | x, _ => tExpectedIntegerError x

/-! ## Rules for literal operands -/

/-- `tModLiteral`. -/
def tModLiteral (t : Ty) (n : Int) : Ty :=
  if n = 0 then .error "Remainder by zero is undefined"
  else if n < 0 then .error "Remainder with negative denominator is undefined"
  else match t with
    | .unsigned x => if n = 1 then .unsigned 1 else .unsigned (min x (clog2 n))
    | .signed x => if n = 1 then .signed 2 else .signed (min x (1 + clog2 n))
    | x => tExpectedIntegerError x

/-- `tAndLiteral`. -/
def tAndLiteral : Ty → Int → Ty
  | .unsigned x, n =>
      if n = 0 then .unsigned 1
      else if n < 0 then .unsigned x
      else .unsigned (min x (clog2 (n + 1)))
  | .signed x, n =>
      if n = 0 then .signed 2
      else if n < 0 then .signed (max x (1 + clog2 (1 - n)))
      else .signed (1 + clog2 (n + 1))
  | x, _ => tExpectedIntegerError x

/-- `tMulLiteral`: the recursion for a negative factor is one call, with the
    absolute value. -/
def tMulLiteral (x : Ty) (n : Int) : Ty :=
  if !tIsInt x then tExpectedIntegerError x
  else if n = 0 then (if tIsSigned x then .signed 2 else .unsigned 1)
  else if n < 0 then
    (if !tIsInt (tNeg x) then tExpectedIntegerError (tNeg x)
      else tWidenInt (tNeg x) (clog2 n.natAbs))
  else tWidenInt x (clog2 n)

/-- `tDivLiteral`. -/
def tDivLiteral (x : Ty) (n : Int) : Ty :=
  if !tIsInt x then tExpectedIntegerError x
  else if n = 0 then .error "Division by zero is undefined"
  else if n < 0 then .error "Division with negative denominator is undefined"
  else tNarrowInt x (clog2 n)

/-- `tShiftLLiteral`. -/
def tShiftLLiteral (x : Ty) (n : Int) : Ty :=
  if tIsInt x then tWidenInt x n else tExpectedIntegerError x

/-- `tShiftRLiteral`. -/
def tShiftRLiteral (x : Ty) (n : Int) : Ty :=
  if tIsInt x then tNarrowInt x n else tExpectedIntegerError x

/-! ## Rules for types -/

/-- `tAdd`.  For a mix of signs the unsigned operand is one bit wider, as
    `tSigned` makes it. -/
def tAdd : Ty → Ty → Ty
  | .unsigned x, .unsigned y => .unsigned (1 + max x y)
  | .signed x, .signed y => .signed (1 + max x y)
  | .unsigned x, .signed y => .signed (1 + max (x + 1) y)
  | .signed x, .unsigned y => .signed (1 + max x (y + 1))
  | .float, .float => .float
  | x, y => tInvalidOperandsError x y

/-- `tSub`. -/
def tSub : Ty → Ty → Ty
  | .unsigned x, .unsigned y => .signed (1 + max x y)
  | x, y => tAdd x y

/-- `tMul`. -/
def tMul : Ty → Ty → Ty
  | .unsigned x, .unsigned y => .unsigned (x + y)
  | .signed x, .unsigned y => .signed (x + y)
  | .unsigned x, .signed y => .signed (x + y)
  | .signed x, .signed y => .signed (x + y)
  | .float, .float => .float
  | x, y => tInvalidOperandsError x y

/-- `tDiv`. -/
def tDiv (x y : Ty) : Ty := if tIsInt x && tIsInt y then x else tInvalidOperandsError x y

/-- `tMod`; the width of an integer type is always there. -/
def tMod : Ty → Ty → Ty
  | .unsigned x, y =>
      if tIsInt y then .unsigned ((tWidth y).getD 0) else tInvalidOperandsError (.unsigned x) y
  | .signed x, y =>
      if tIsInt y then .signed ((tWidth y).getD 0) else tInvalidOperandsError (.signed x) y
  | x, y => tInvalidOperandsError x y

/-- `tBitwiseOr`. -/
def tBitwiseOr (x y : Ty) : Ty :=
  if tIsInt x && tIsInt y then tSuper x y else tInvalidOperandsError x y

/-- `tBitwiseAnd`. -/
def tBitwiseAnd : Ty → Ty → Ty
  | .unsigned x, .unsigned y => .unsigned (min x y)
  | x, y => if tIsInt x && tIsInt y then tSuper x y else tInvalidOperandsError x y

/-- `tLogical`. -/
def tLogical : Ty → Ty → Ty
  | .boolean, .boolean => .boolean
  | x, y => tInvalidOperandsError x y

/-- `tShiftR`. -/
def tShiftR (x y : Ty) : Ty := if tIsInt x && tIsInt y then x else tInvalidOperandsError x y

/-- `tShiftL`. -/
def tShiftL (x y : Ty) : Ty :=
  if !(tIsInt x && tIsInt y) then tInvalidOperandsError x y
  else if (tWidth y).getD 0 ≥ 20 then
    .error "Invalid shift left. Result type exceeds maximum bit width."
  else tWidenInt x (2 ^ ((tWidth y).getD 0).toNat - 1)

/-! ## Inference -/

/-- `inferUnaryOp`. -/
def inferUnaryOp (op : UnaryOp) (x : Exp) : Ty :=
  match op with
  | .invert =>
      if isUntypedIntLiteral x then tInvert (tSigned (typeOfOperand x))
      else tInvert (typeOfOperand x)
  | .neg =>
      if isIntLiteral x then
        tSuper (typeOfOperand x) (inferIntLiteralType none (-(fromIntegralConstexpr x).getD 0))
      else tNeg (typeOfOperand x)
  | .not => tNot (typeOfOperand x)
  | .bitSizeof | .byteSizeof | .clog2 => .unresolved

/-- `tBinaryOp`: the rule of an operator for two types. -/
def tBinaryOp : BinaryOp → Ty → Ty → Ty
  | .add => tAdd
  | .sub => tSub
  | .mul | .lutMul => tMul
  | .div => tDiv
  | .mod => tMod
  | .bitwiseAnd => tBitwiseAnd
  | .bitwiseOr | .bitwiseXor => tBitwiseOr
  | .shiftRight => tShiftR
  | .shiftLeft => tShiftL
  | .equal | .notEqual | .greater | .greaterEqual | .less | .lessEqual => fun _ _ => .boolean
  | .or | .and | .xor => tLogical

/-- `tBinaryOpLiteral`. -/
def tBinaryOpLiteral (rule : Ty → Int → Ty) (x y : Exp) : Ty :=
  rule (typeOfOperand x) ((fromIntegralConstexpr y).getD 0)

/-- `inferBinaryOp`. -/
def inferBinaryOp (op : BinaryOp) (a b : Exp) : Ty :=
  match op with
  | .bitwiseAnd =>
      if isUntypedIntLiteral b then tBinaryOpLiteral tAndLiteral a b
      else if isUntypedIntLiteral a then tBinaryOpLiteral tAndLiteral b a
      else tBinaryOp op (typeOfOperand a) (typeOfOperand b)
  | .mul =>
      if isUntypedIntLiteral b then tBinaryOpLiteral tMulLiteral a b
      else if isUntypedIntLiteral a then tBinaryOpLiteral tMulLiteral b a
      else tBinaryOp op (typeOfOperand a) (typeOfOperand b)
  | .div =>
      if isIntLiteral b then tBinaryOpLiteral tDivLiteral a b
      else tBinaryOp op (typeOfOperand a) (typeOfOperand b)
  | .mod =>
      if isIntLiteral b then tBinaryOpLiteral tModLiteral a b
      else tBinaryOp op (typeOfOperand a) (typeOfOperand b)
  | .shiftLeft =>
      -- the rule takes an `Int`, so that the literal is converted first
      if isIntLiteral b then tBinaryOpLiteral (fun t n => tShiftLLiteral t (wrapInt n)) a b
      else tBinaryOp op (typeOfOperand a) (typeOfOperand b)
  | .shiftRight =>
      if isIntLiteral b then tBinaryOpLiteral (fun t n => tShiftRLiteral t (wrapInt n)) a b
      else tBinaryOp op (typeOfOperand a) (typeOfOperand b)
  | _ => tBinaryOp op (typeOfOperand a) (typeOfOperand b)

end Kanagawa.Frontend
