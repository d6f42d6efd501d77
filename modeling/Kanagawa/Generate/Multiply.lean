/-
  Kanagawa.Generate.Multiply

  The operations generated for integer multiplications (`ir.cpp`).

  With one operand known at compile time, `GenerateIntegerMultConstant` adds
  shifted copies of the other operand.  Otherwise `GenerateIntegerMultParameterized`
  cuts both operands into words, multiplies every pair of words with a primitive
  it is given, and adds the shifted products.  Both end in `AddRegisters`, an adder
  tree.  Types are at most `c_maxRegisterBitWidth` bits wide, so offsets and shift
  amounts do not wrap around `size_t`.
-/
import Kanagawa.IR.Emission

namespace Kanagawa.Generate

open IR

/-! ## Registers with a type -/

/-- `LeafType` of an integer: `_baseType` is `Int` or `Uint`, and `_width`. -/
structure LeafType where
  signed : Bool
  width : Nat
  deriving Repr, DecidableEq

/-- `AllocatedLeafRegister`. -/
structure AllocatedLeafRegister where
  type : LeafType
  registerIndex : Nat
  deriving Repr, DecidableEq

/-- The register is one of the table and as wide as its type. -/
structure AllocatedLeafRegister.AllocatedIn (reg : AllocatedLeafRegister)
    (table : RegisterTable) : Prop where
  lt : reg.registerIndex < table.length
  width : (table.desc reg.registerIndex).width = reg.type.width

instance (reg : AllocatedLeafRegister) (table : RegisterTable) :
    Decidable (reg.AllocatedIn table) :=
  decidable_of_iff (reg.registerIndex < table.length ∧
      (table.desc reg.registerIndex).width = reg.type.width)
    ⟨fun h => ⟨h.1, h.2⟩, fun h => ⟨h.lt, h.width⟩⟩

/-- The bits of a register. -/
def AllocatedLeafRegister.bits (reg : AllocatedLeafRegister) (regs : Nat → Nat) : Literal :=
  ⟨regs reg.registerIndex % 2 ^ reg.type.width, reg.type.width⟩

/-- The integer a register holds under its type. -/
def AllocatedLeafRegister.typedValue (reg : AllocatedLeafRegister) (regs : Nat → Nat) : Int :=
  (reg.bits regs).denote reg.type.signed

/-! ## `AddRegisters` -/

/-- One pass of the loop of `AddRegisters`: sums of pairs, and what is left over. -/
def addPairs (resultWidth : Nat) (e : Emission) : List Nat → List Nat × Emission
  | lhs :: rhs :: rest =>
      let sum := e.binaryOp .add resultWidth (.register lhs) false (.register rhs) false
      let others := addPairs resultWidth sum.2 rest
      (sum.1 :: others.1, others.2)
  | leftOver => (leftOver, e)

theorem length_addPairs (resultWidth : Nat) (e : Emission) (registers : List Nat) :
    (addPairs resultWidth e registers).1.length = (registers.length + 1) / 2 := by
  fun_induction addPairs resultWidth e registers with
  | case1 e lhs rhs rest sum others ih =>
      rw [List.length_cons, List.length_cons, List.length_cons, ih]
      omega
  | case2 e leftOver h =>
      match leftOver, h with
      | [], _ => rfl
      | [_], _ => simp
      | lhs :: rhs :: rest, h => exact absurd rfl (h lhs rhs rest)

/-- The loop of `AddRegisters`, which ends with one register or none. -/
def addTree (resultWidth : Nat) (e : Emission) (intermediateRegisters : List Nat) :
    List Nat × Emission :=
  if intermediateRegisters.length > 1 then
    let sums := addPairs resultWidth e intermediateRegisters
    addTree resultWidth sums.2 sums.1
  else (intermediateRegisters, e)
  termination_by intermediateRegisters.length
  decreasing_by
    rw [length_addPairs]
    omega

/-- `AddRegisters`. -/
def addRegisters (e : Emission) (srcRegisters : List Nat) (writtenRegister : AllocatedLeafRegister) :
    Emission :=
  let tree := addTree writtenRegister.type.width e srcRegisters
  let src := match tree.1 with
    | register :: _ => .register register
    -- x * 0 == 0
    | [] => sizeLiteral 0
  tree.2.push
    { Emission.movOperation src false with dst := [.register writtenRegister.registerIndex] }

/-! ## `GenerateIntegerMultConstant` -/

/-- `bit_unset`: the index is asserted to fit an unsigned 32-bit integer. -/
def bitUnset (val bitIndex : Nat) : Except Failure Nat :=
  if bitIndex ≤ uint32Max then .ok (val ^^^ (val &&& 2 ^ bitIndex)) else .error .assertion

/-- What the loop of `GenerateIntegerMultConstant` has made so far. -/
structure ConstantTerms where
  emission : Emission
  intermediateRegisters : List Nat
  valueToSubtract : Option Nat

/-- The body of the loop for a bit that is set: shifts the other value by the bit index.  The
    most significant bit of a signed known value is subtracted. -/
def addConstantTerm (knownValueType : LeafType) (otherValue : AllocatedLeafRegister)
    (resultWidth bitIndex : Nat) (terms : ConstantTerms) : ConstantTerms :=
  let intermediate := terms.emission.binaryOp .shl (otherValue.type.width + bitIndex)
    (.register otherValue.registerIndex) false (sizeLiteral bitIndex) false
  let final :=
    if otherValue.type.signed then intermediate.2.mov resultWidth (.register intermediate.1) true
    else intermediate
  if knownValueType.signed && bitIndex == knownValueType.width - 1 then
    { terms with emission := final.2, valueToSubtract := some final.1 }
  else
    { terms with
      emission := final.2
      intermediateRegisters := terms.intermediateRegisters ++ [final.1] }

/-- The loop of `GenerateIntegerMultConstant`: `none` when the fuel runs out. -/
def constantTerms (knownValueType : LeafType) (otherValue : AllocatedLeafRegister)
    (resultWidth : Nat) : Nat → Nat → Nat → ConstantTerms → Except Failure (Option ConstantTerms)
  | 0, _, _, _ => .ok none
  | fuel + 1, bitMask, bitIndex, terms =>
      if bitMask = 0 then .ok (some terms)
      else do
        if ← bitTest bitMask bitIndex then
          let bitMask ← bitUnset bitMask bitIndex
          constantTerms knownValueType otherValue resultWidth fuel bitMask (bitIndex + 1)
            (addConstantTerm knownValueType otherValue resultWidth bitIndex terms)
        else
          constantTerms knownValueType otherValue resultWidth fuel bitMask (bitIndex + 1) terms

/-- `GenerateIntegerMultConstant`. -/
def generateIntegerMultConstant (fuel : Nat) (e : Emission) (knownValue : Nat)
    (knownValueType : LeafType) (otherValue writtenRegister : AllocatedLeafRegister) :
    Except Failure (Option Emission) := do
  let terms ← constantTerms knownValueType otherValue writtenRegister.type.width fuel knownValue 0
    ⟨e, [], none⟩
  return terms.map fun terms =>
    let sum := addRegisters terms.emission terms.intermediateRegisters writtenRegister
    match terms.valueToSubtract with
    | some value =>
        sum.push
          { Emission.binaryOperation .sub (.register writtenRegister.registerIndex) false
              (.register value) false with
            dst := [.register writtenRegister.registerIndex] }
    | none => sum

/-! ## `GenerateIntegerMultParameterized` -/

/-- The body of the loop of `SliceRegister`: the word at an offset, extended to the slice width
    when the register ends before it. -/
def sliceWord (srcReg : AllocatedLeafRegister) (targetSliceWidth offset : Nat) (e : Emission) :
    Nat × Emission :=
  let sliceWidth := min (offset + targetSliceWidth) srcReg.type.width - offset
  let slice := e.binaryOp .shr sliceWidth (.register srcReg.registerIndex) false
    (sizeLiteral offset) false
  if sliceWidth = targetSliceWidth then slice
  else slice.2.mov targetSliceWidth (.register slice.1) srcReg.type.signed

/-- `SliceRegister`, from an offset on. -/
def sliceRegister (srcReg : AllocatedLeafRegister) (targetSliceWidth : Nat)
    (hpos : 0 < targetSliceWidth) (offset : Nat) (e : Emission) : List Nat × Emission :=
  if offset < srcReg.type.width then
    let word := sliceWord srcReg targetSliceWidth offset e
    let others := sliceRegister srcReg targetSliceWidth hpos (offset + targetSliceWidth) word.2
    (word.1 :: others.1, others.2)
  else ([], e)
  termination_by srcReg.type.width - offset

/-- `GetIntegerMultMaxTargetSrcWidth`: one less for signed operands, because some factors of
    partial products must be zero-extended. -/
def getIntegerMultMaxTargetSrcWidth (eitherOperandSigned : Bool)
    (targetIntegerMulSrcWidth : Nat) : Nat :=
  if eitherOperandSigned then targetIntegerMulSrcWidth - 1 else targetIntegerMulSrcWidth

/-- `IntegerMultExtend`. -/
def integerMultExtend (e : Emission) (srcReg : Nat) (srcOperandIsSigned srcOperandIsHighWord : Bool)
    (resultWidth : Nat) : Nat × Emission :=
  e.mov resultWidth (.register srcReg) (srcOperandIsSigned && srcOperandIsHighWord)

/-- `EmitMultCb`: emits a multiplication of two registers into a third one.  It is also given a
    register that holds zero, and which operands are signed. -/
abbrev EmitMult := Emission → Nat → Nat → Nat → Nat → Bool → Bool → Emission

/-- What the multiplication of two words depends on. -/
structure MultConfig where
  lhsSigned : Bool
  rhsSigned : Bool
  targetIntegerMulSrcWidth : Nat
  resultWidth : Nat
  falseReg : Nat
  emitMult : EmitMult

namespace MultConfig

def eitherOperandSigned (cfg : MultConfig) : Bool := cfg.lhsSigned || cfg.rhsSigned

def maxTargetSrcWidth (cfg : MultConfig) : Nat :=
  getIntegerMultMaxTargetSrcWidth cfg.eitherOperandSigned cfg.targetIntegerMulSrcWidth

/-- The body of the two loops: the shifted product of word `i` of the left operand and word `j`
    of the right one. -/
def partialProduct (cfg : MultConfig) (e : Emission) (i j : Nat) (lhsIsHigh rhsIsHigh : Bool)
    (lhsTerm rhsTerm : Nat) : Nat × Emission :=
  let partialResult := e.allocate (cfg.targetIntegerMulSrcWidth * 2)
  let lhs :=
    if cfg.eitherOperandSigned then
      integerMultExtend partialResult.2 lhsTerm cfg.lhsSigned lhsIsHigh cfg.targetIntegerMulSrcWidth
    else (lhsTerm, partialResult.2)
  let rhs :=
    if cfg.eitherOperandSigned then
      integerMultExtend lhs.2 rhsTerm cfg.rhsSigned rhsIsHigh cfg.targetIntegerMulSrcWidth
    else (rhsTerm, lhs.2)
  let product := cfg.emitMult rhs.2 partialResult.1 lhs.1 rhs.1 cfg.falseReg cfg.lhsSigned
    cfg.rhsSigned
  let extended :=
    if cfg.eitherOperandSigned then
      product.mov cfg.resultWidth (.register partialResult.1) true
    else (partialResult.1, product)
  extended.2.binaryOp .shl cfg.resultWidth (.register extended.1) false
    (sizeLiteral ((i + j) * cfg.maxTargetSrcWidth)) false

/-- The inner loop, over the words of the right operand from number `j` on. -/
def partialProductRow (cfg : MultConfig) (i : Nat) (lhsIsHigh : Bool) (lhsTerm : Nat) :
    Nat → Emission → List Nat → List Nat × Emission
  | _, e, [] => ([], e)
  | j, e, rhsTerm :: rhsTerms =>
      let product := cfg.partialProduct e i j lhsIsHigh rhsTerms.isEmpty lhsTerm rhsTerm
      let others := partialProductRow cfg i lhsIsHigh lhsTerm (j + 1) product.2 rhsTerms
      (product.1 :: others.1, others.2)

/-- The outer loop, over the words of the left operand from number `i` on. -/
def partialProducts (cfg : MultConfig) (rhsTerms : List Nat) :
    Nat → Emission → List Nat → List Nat × Emission
  | _, e, [] => ([], e)
  | i, e, lhsTerm :: lhsTerms =>
      let row := cfg.partialProductRow i lhsTerms.isEmpty lhsTerm 0 e rhsTerms
      let others := partialProducts cfg rhsTerms (i + 1) row.2 lhsTerms
      (row.1 ++ others.1, others.2)

end MultConfig

/-- A target source width from which words can be cut: at least one bit, and at least two when
    an operand is signed. -/
def UsableSrcWidth (lhsRegister rhsRegister : AllocatedLeafRegister)
    (targetIntegerMulSrcWidth : Nat) : Prop :=
  0 < getIntegerMultMaxTargetSrcWidth (lhsRegister.type.signed || rhsRegister.type.signed)
    targetIntegerMulSrcWidth

instance (lhsRegister rhsRegister : AllocatedLeafRegister) (targetIntegerMulSrcWidth : Nat) :
    Decidable (UsableSrcWidth lhsRegister rhsRegister targetIntegerMulSrcWidth) :=
  inferInstanceAs (Decidable (0 < _))

/-- `GenerateIntegerMultParameterized`: the partial products and the emission.  With a width that
    is not usable the loops of `SliceRegister` do not end. -/
def generatePartialProducts (e : Emission) (lhsRegister rhsRegister : AllocatedLeafRegister)
    (targetIntegerMulSrcWidth : Nat)
    (hwidth : UsableSrcWidth lhsRegister rhsRegister targetIntegerMulSrcWidth)
    (emitMult : EmitMult) (writtenRegister : AllocatedLeafRegister) : List Nat × Emission :=
  let maxTargetSrcWidth := getIntegerMultMaxTargetSrcWidth
    (lhsRegister.type.signed || rhsRegister.type.signed) targetIntegerMulSrcWidth
  let lhsTerms := sliceRegister lhsRegister maxTargetSrcWidth hwidth 0 e
  let rhsTerms := sliceRegister rhsRegister maxTargetSrcWidth hwidth 0 lhsTerms.2
  let falseReg := rhsTerms.2.mov 1 (sizeLiteral 0) false
  let cfg : MultConfig := ⟨lhsRegister.type.signed, rhsRegister.type.signed,
    targetIntegerMulSrcWidth, writtenRegister.type.width, falseReg.1, emitMult⟩
  cfg.partialProducts rhsTerms.1 0 falseReg.2 lhsTerms.1

/-- `GenerateIntegerMultParameterized`. -/
def generateIntegerMultParameterized (e : Emission)
    (lhsRegister rhsRegister : AllocatedLeafRegister) (targetIntegerMulSrcWidth : Nat)
    (hwidth : UsableSrcWidth lhsRegister rhsRegister targetIntegerMulSrcWidth)
    (emitMult : EmitMult) (writtenRegister : AllocatedLeafRegister) : Emission :=
  let products := generatePartialProducts e lhsRegister rhsRegister targetIntegerMulSrcWidth hwidth
    emitMult writtenRegister
  addRegisters products.2 products.1 writtenRegister

/-- The number of calls that `GetCalledInlineFunction` counts for a multiplication. -/
def getCalledInlineFunctionCount (lhsType rhsType : LeafType) (integerMulSrcWidth : Nat) : Nat :=
  let maxTargetSrcWidth :=
    getIntegerMultMaxTargetSrcWidth (lhsType.signed || rhsType.signed) integerMulSrcWidth
  let numLhsTerms := (lhsType.width + maxTargetSrcWidth - 1) / maxTargetSrcWidth
  let numRhsTerms := (rhsType.width + maxTargetSrcWidth - 1) / maxTargetSrcWidth
  numLhsTerms * numRhsTerms

/-- The multiplier of `GenerateIntegerMult` for devices without one of their own. -/
def emitLutMul : EmitMult := fun e resultReg src0 src1 _ lhsSigned rhsSigned =>
  e.push
    { Emission.binaryOperation .lutMul (.register src0) lhsSigned (.register src1) rhsSigned with
      dst := [.register resultReg] }

end Kanagawa.Generate
