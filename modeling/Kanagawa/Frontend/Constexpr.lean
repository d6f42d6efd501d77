/-
  Kanagawa.Frontend.Constexpr

  Evaluation of constant expressions (`Constexpr.hs`, `Internal.hs`).

  `evaluateConstexpr` replaces an operator applied to literals by a literal.
  The value is computed on unbounded integers and the type comes from the
  inference rules.  The functions here are its clauses for operators, casts and
  reads of constants.  Haskell is lazy: where a clause builds a literal whose
  width or value is an undefined expression, forcing it throws, and the outcome
  is `undefined`.  Floating-point literals are kept as their 32-bit words.
-/
import Kanagawa.Frontend.Infer

namespace Kanagawa.Frontend

/-! ## Truncation -/

/-- `truncateUInt`. -/
def truncateUInt (n x : Int) : Int := Int.land x (2 ^ n.toNat - 1)

/-- `truncateInt`. -/
def truncateInt (n x : Int) : Int :=
  if 0 = Int.land x (2 ^ (n - 1).toNat) then truncateUInt (n - 1) x
  else -2 ^ (n - 1).toNat + truncateUInt (n - 1) x

/-! ## Outcomes -/

/-- What a clause of `evaluateConstexpr` makes of an expression. -/
inductive Evaluated where
  /-- The expression as it was. -/
  | unchanged
  | intLiteral (w : Option LiteralType) (x : Int)
  | boolLiteral (x : Bool)
  | floatLiteral (word : Int)
  /-- `desugarError`. -/
  | error (message : String)
  | undefined
  deriving Repr, DecidableEq

/-- `untypedIntLiteral`. -/
def untypedIntLiteral (x : Int) : Evaluated := .intLiteral none x

/-- `typedIntLiteral`: the width of a type that has none is `fromJust Nothing`. -/
def typedIntLiteral (t : Ty) (x : Int) : Evaluated :=
  match tWidth t with
  | some width =>
      .intLiteral (some ⟨if tIsSigned t then .signedLiteral else .unsignedLiteral, width⟩) x
  | none => .undefined

/-- `castIntegralConstexpr`; `castWord32ToFloat` keeps the word. -/
def castIntegralConstexpr (t : Ty) (x : Int) : Option Evaluated :=
  if tIsSigned t then some (typedIntLiteral t (truncateInt ((tWidth t).getD 0) x))
  else if tIsUnsigned t then some (typedIntLiteral t (truncateUInt ((tWidth t).getD 0) x))
  else if tIsFloat t then some (.floatLiteral (x % 2 ^ 32))
  else none

/-- The literal that a shift gives: a shift by a negative `Int` throws. -/
def shiftResult (literal : Int → Evaluated) (shift : Nat → Int) (y : Int) : Evaluated :=
  if wrapInt y < 0 then .undefined else literal (shift (wrapInt y).toNat)

/-! ## Binary operators -/

/-- `evalBinary` on two integer literals; `literal` is `intLiteral`. -/
def evalBinaryInts (literal : Int → Evaluated) (x y : Int) : BinaryOp → Evaluated
  | .add => literal (x + y)
  | .sub => literal (x - y)
  | .mul => literal (x * y)
  | .lutMul => literal (x * y)
  | .div => if y ≠ 0 then literal (x.tdiv y) else .error "Division by zero is undefined"
  | .mod => if y ≠ 0 then literal (x.tmod y) else .error "Remainder by zero is undefined"
  | .bitwiseAnd => literal (Int.land x y)
  | .bitwiseOr => literal (Int.lor x y)
  | .bitwiseXor => literal (Int.xor x y)
  | .shiftLeft => shiftResult literal (fun n => x * 2 ^ n) y
  | .shiftRight => shiftResult literal (fun n => x / 2 ^ n) y
  | .equal => .boolLiteral (x = y)
  | .notEqual => .boolLiteral (x ≠ y)
  | .greater => .boolLiteral (x > y)
  | .greaterEqual => .boolLiteral (x ≥ y)
  | .less => .boolLiteral (x < y)
  | .lessEqual => .boolLiteral (x ≤ y)
  | .or | .and | .xor => .unchanged

/-- `evalBinary` on two Boolean literals. -/
def evalBinaryBools (x y : Bool) : BinaryOp → Evaluated
  | .equal => .boolLiteral (x == y)
  | .notEqual => .boolLiteral (x != y)
  | .or => .boolLiteral (x || y)
  | .and => .boolLiteral (x && y)
  | .xor => .boolLiteral ((x || y) && !(x && y))
  | _ => .unchanged

/-- `evalBinary` on two string literals. -/
def evalBinaryStrings (x y : String) : BinaryOp → Evaluated
  | .equal => .boolLiteral (x == y)
  | .notEqual => .boolLiteral (x != y)
  | _ => .unchanged

/-- `Nothing` is below every size. -/
def sizeLe : Option Int → Option Int → Bool
  | none, _ => true
  | some _, none => false
  | some v, some w => v ≤ w

/-- `evalBinaryInt`: `x` is any expression and `y` the value of a literal whose
    size is `sizeOfY`. -/
def evalBinaryInt (x : Exp) (sizeOfY : Option Int) (y : Int) (op : BinaryOp) : Evaluated :=
  if !tIsInt x.typeOf then .unchanged
  else match op with
    | .bitwiseAnd =>
        if y = 0 && sizeLe (tWidth x.typeOf) sizeOfY then untypedIntLiteral 0 else .unchanged
    | .bitwiseOr =>
        if (List.range ((tWidth x.typeOf).getD 0).toNat).all (Int.testBit y) then
          untypedIntLiteral y
        else .unchanged
    | _ => .unchanged

/-- `evalBinaryBool`. -/
def evalBinaryBool (x : Exp) (y : Bool) (op : BinaryOp) : Evaluated :=
  if !tIsBool x.typeOf then .unchanged
  else match op, y with
    | .or, true => .boolLiteral true
    | .and, false => .boolLiteral false
    | _, _ => .unchanged

/-- `evalBinaryType`. -/
def evalBinaryType (s t : Ty) : BinaryOp → Evaluated
  | .equal => .boolLiteral (subtype s t && subtype t s)
  | .notEqual => .boolLiteral (!subtype s t || !subtype t s)
  | .lessEqual => .boolLiteral (subtype s t)
  | .less => .boolLiteral (subtype s t && !subtype t s)
  | .greaterEqual => .boolLiteral (subtype t s)
  | .greater => .boolLiteral (subtype t s && !subtype s t)
  | _ => .unchanged

/-- `theType`. -/
def theType (e : Exp) : Ty :=
  match e.typeOf with
  | .type t => t
  | t => if !tResolved t then .unresolved else .error "Expected a type"

/-- An expression under its enum constants. -/
def stripEnumValue : Exp → Exp
  | .enumValue _ _ x => stripEnumValue x
  | x => x

/-- `eval` of `BinaryF op a b`. -/
def evalBinary (op : BinaryOp) (a b : Exp) : Evaluated :=
  if tResolved a.typeOf && tResolved b.typeOf then
    match stripEnumValue a, stripEnumValue b with
    | .intLiteral _ wx x, .intLiteral _ wy y =>
        evalBinaryInts (if wx.isNone && wy.isNone then untypedIntLiteral
          else typedIntLiteral (inferBinaryOp op a b)) x y op
    | .boolLiteral _ x, .boolLiteral _ y => evalBinaryBools x y op
    | .stringLiteral _ x, .stringLiteral _ y => evalBinaryStrings x y op
    | x, .intLiteral t _ y => evalBinaryInt x (tWidth t) y op
    | .intLiteral t _ x, y => evalBinaryInt y (tWidth t) x op
    | x, .boolLiteral _ y => evalBinaryBool x y op
    | .boolLiteral _ x, y => evalBinaryBool y x op
    | x, y =>
        if tIsType x.typeOf && tIsType y.typeOf then evalBinaryType (theType x) (theType y) op
        else .unchanged
  else .unchanged

/-! ## Unary operators, casts and constants -/

/-- `invert`. -/
def evalInvert (literal : Int → Evaluated) (t : Ty) (x : Exp) : Option Evaluated :=
  if tIsUnsigned t then
    (fromIntegralConstexpr x).map fun v => literal (truncateUInt ((tWidth t).getD 0) (Int.lnot v))
  else if tIsSigned t then
    (fromIntegralConstexpr x).map fun v => literal (truncateInt ((tWidth t).getD 0) (Int.lnot v))
  else none

/-- `bytesFromBits`. -/
def bytesFromBits (message : String) (x : Int) : Evaluated :=
  if Int.land x 7 = 0 then untypedIntLiteral (x / 2 ^ 3) else .error (message ++ toString x)

/-- `eval` of `UnaryF op a`; `resolved` says whether the type of the whole
    expression is known.  Negation of a float is left out. -/
def evalUnary (op : UnaryOp) (a : Exp) (resolved : Bool) : Evaluated :=
  let literal := if isUntypedIntLiteral a then untypedIntLiteral
    else typedIntLiteral (inferUnaryOp op a)
  match op with
  | .clog2 =>
      match fromIntegralConstexpr a with
      | some x => if 0 < x then untypedIntLiteral (clog2 x) else .unchanged
      | none => .unchanged
  | .neg => ((fromIntegralConstexpr a).map fun x => literal (-x)).getD .unchanged
  | .invert =>
      if !resolved then .unchanged
      else if tIsEnum a.typeOf then (evalInvert literal (tEnumBase a.typeOf) a).getD .unchanged
      else if isUntypedIntLiteral a then (evalInvert literal (tSigned a.typeOf) a).getD .unchanged
      else if tIsInt a.typeOf then (evalInvert literal a.typeOf a).getD .unchanged
      else .unchanged
  | .bitSizeof => ((tWidth a.typeOf).map untypedIntLiteral).getD .unchanged
  | .byteSizeof =>
      ((tWidth a.typeOf).map (bytesFromBits
        "bytesizeof is undefined for a type with bit size of ")).getD .unchanged
  | .not =>
      match a with
      | .boolLiteral _ x => .boolLiteral !x
      | _ => .unchanged

/-- `eval` of `CastF t x` for an integral operand. -/
def evalCast (t : Ty) (x : Exp) : Evaluated :=
  ((fromIntegralConstexpr x).bind (castIntegralConstexpr t)).getD .unchanged

/-- `eval` of `NamedValueF` for a constant variable of type `t` whose
    initializer is the integer literal `v`. -/
def evalNamedConst (t : Ty) (v : Exp) : Evaluated :=
  if (tIsInt t || tIsFloat t) && isIntLiteral v then
    ((fromIntegralConstexpr v).bind (castIntegralConstexpr t)).getD .unchanged
  else .unchanged

end Kanagawa.Frontend
