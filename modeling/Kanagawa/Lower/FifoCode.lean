/-
  Kanagawa.Lower.FifoCode

  Narrowing FIFOs (`lower.cpp`, `FifoCodeBuilder` and `CopyToFifo`).

  The builder follows moves between local registers; registers that are known to be
  constant, or equal to another register that is already in the FIFO, take no room
  in the physical word.  The code it produces says how the logical word is encoded
  and decoded.
-/
import Kanagawa.IR.Semantics
import Kanagawa.Lib.Except
import Kanagawa.Lib.Slices

namespace Kanagawa.Lower

open IR Lib

/-! ## Codes -/

/-- `FifoCodeInputRange`. -/
structure FifoCodeInputRange where
  width : Nat
  decodedOffset : Nat
  encodedOffset : Nat
  deriving Repr, DecidableEq

/-- `FifoCodeOutputRange`. -/
structure FifoCodeOutputRange where
  width : Nat
  decodedOffset : Nat
  isLiteral : Bool
  encodedOffset : Nat
  literal : Nat
  deriving Repr, DecidableEq

/-- `FifoCode`. -/
structure FifoCode where
  initialized : Bool := false
  encodedWidth : Nat := 0
  inputRanges : List FifoCodeInputRange := []
  outputRanges : List FifoCodeOutputRange := []
  deriving Repr, DecidableEq

/-! ## The builder -/

/-- `FifoCodeBuilder`. -/
structure FifoCodeBuilder where
  registerMap : Std.ExtTreeMap Nat SourceOperand := ∅
  fifoCode : FifoCode := {}
  encodeMap : Std.ExtTreeMap Nat (Nat × Nat) := ∅
  physicalBitsEncoded : Nat := 0
  logicalBitsEncoded : Nat := 0

/-- `OperationUsesOnlyLocalReg`. -/
def operationUsesOnlyLocalReg (table : RegisterTable) (op : Operation) : Bool :=
  op.reads.all (RegisterTable.isLocal table) && op.writes.all (RegisterTable.isLocal table)

/-- The moves the builder follows, as destination register and source operand: sign
    extension is not supported. -/
def followedMove (optimizing : Bool) (table : RegisterTable) (op : Operation) :
    Except Failure (Option (Nat × SourceOperand)) :=
  if optimizing && (op.opcode == .mov || op.opcode == .movCrossFunction) &&
      operationUsesOnlyLocalReg table op && op.signExtendSourceMask == 0 then
    match op.dst, op.src with
    | .register dstReg :: dst, src => do
        assert dst.isEmpty
        match src with
        | [srcOp] => return some (dstReg, srcOp)
        | _ => .error .assertion
    | _, _ => .ok none
  else .ok none

/-- `FifoCodeBuilder::ProcessOperation`. -/
def FifoCodeBuilder.processOperation (fcb : FifoCodeBuilder) (optimizing : Bool)
    (table : RegisterTable) (op : Operation) : Except Failure FifoCodeBuilder := do
  match ← followedMove optimizing table op with
  | none => return fcb
  | some (dstReg, srcOp) =>
      match srcOp with
      | .literal l =>
          let registerMap ← safeInsert fcb.registerMap dstReg (.literal l)
          return { fcb with registerMap := registerMap }
      | .register srcReg =>
          -- Only optimize when the widths match, to not worry about truncation
          if (table.desc srcReg).width == (table.desc dstReg).width then
            let registerMap ← safeInsert fcb.registerMap dstReg
              (fcb.registerMap.getD srcReg (.register srcReg))
            return { fcb with registerMap := registerMap }
          else return fcb
      | _ => return fcb

/-- The builder after the operations of a block. -/
def processOperations (optimizing : Bool) (table : RegisterTable) (operations : List Operation) :
    Except Failure FifoCodeBuilder :=
  operations.foldlM (fun fcb op => fcb.processOperation optimizing table op) {}

/-- `FifoCodeBuilder::BeginEncode`. -/
def FifoCodeBuilder.beginEncode (fcb : FifoCodeBuilder) : FifoCodeBuilder :=
  { fcb with
    fifoCode := {}
    encodeMap := ∅
    physicalBitsEncoded := 0
    logicalBitsEncoded := 0 }

/-- The input range of an output range. -/
def FifoCodeOutputRange.toInput (outputRange : FifoCodeOutputRange) : FifoCodeInputRange :=
  { width := outputRange.width
    decodedOffset := outputRange.decodedOffset
    encodedOffset := outputRange.encodedOffset }

/-- The body of the loop that builds the input ranges, with the set of covered ranges. -/
def coverRange (p : Std.ExtTreeSet Nat × List FifoCodeInputRange)
    (outputRange : FifoCodeOutputRange) : Std.ExtTreeSet Nat × List FifoCodeInputRange :=
  if outputRange.isLiteral then p
  else if p.1.contains outputRange.encodedOffset then p
  else (p.1.insert outputRange.encodedOffset, p.2 ++ [outputRange.toInput])

/-- The input ranges of a list of output ranges: one for each physical range, the
    others are known to have the same values. -/
def inputRangesOf (outputRanges : List FifoCodeOutputRange) : List FifoCodeInputRange :=
  (outputRanges.foldl coverRange (∅, [])).2

/-- `FifoCodeBuilder::EndEncode`. -/
def FifoCodeBuilder.endEncode (fcb : FifoCodeBuilder) : Except Failure FifoCode := do
  assert (!fcb.fifoCode.initialized)
  assert (fcb.fifoCode.encodedWidth == 0)
  assert fcb.fifoCode.inputRanges.isEmpty
  return { fcb.fifoCode with
    initialized := true
    encodedWidth := fcb.physicalBitsEncoded
    inputRanges := inputRangesOf fcb.fifoCode.outputRanges }

/-- What `CopyToFifo` works on: the builder, the program's registers and the operations
    of the stage. -/
structure CopyState where
  fcb : FifoCodeBuilder
  registerTable : RegisterTable
  operations : List Operation

/-- The output range of the next register, and the builder after it. -/
def FifoCodeBuilder.push (fcb : FifoCodeBuilder) (outputRange : FifoCodeOutputRange) :
    FifoCodeBuilder :=
  { fcb with
    fifoCode := { fcb.fifoCode with
      outputRanges := fcb.fifoCode.outputRanges ++ [outputRange] }
    logicalBitsEncoded := fcb.logicalBitsEncoded + outputRange.width }

/-- The assertion that a duplicate register has the value that is in the FIFO. -/
def duplicateAssert (r first : Nat) : Operation :=
  { opcode := .assert, src := [.register r, .register first] }

/-- The register allocated beside the assertion. -/
def fifoEncodeRegEq : RegisterDescription :=
  { width := 1, type := .wire, isDirectSource := false, isConstant := false, initialValue := none }

/-- `FifoCodeBuilder::EncodeReg`. -/
def encodeReg (s : CopyState) (r : Nat) : Except Failure (CopyState × Option Literal) := do
  let fcb := s.fcb
  let width := (s.registerTable.desc r).width
  match fcb.registerMap[r]? with
  | none =>
      -- Nothing is known about this register
      let outputRange : FifoCodeOutputRange :=
        ⟨width, fcb.logicalBitsEncoded, false, fcb.physicalBitsEncoded, 0⟩
      return ({ s with
        fcb := { fcb.push outputRange with
          physicalBitsEncoded := fcb.physicalBitsEncoded + width } }, none)
  | some (.literal l) =>
      -- No need to store this value into the fifo
      let literal := truncate l.value width
      let outputRange : FifoCodeOutputRange := ⟨width, fcb.logicalBitsEncoded, true, 0, literal⟩
      return ({ s with fcb := fcb.push outputRange }, some ⟨literal, width⟩)
  | some (.register trueSourceReg) =>
      assert (width == (s.registerTable.desc trueSourceReg).width)
      match fcb.encodeMap[trueSourceReg]? with
      | none =>
          -- First time a register equal to trueSourceReg is placed into the fifo
          let outputRange : FifoCodeOutputRange :=
            ⟨width, fcb.logicalBitsEncoded, false, fcb.physicalBitsEncoded, 0⟩
          let encodeMap ← safeInsert fcb.encodeMap trueSourceReg (r, fcb.physicalBitsEncoded)
          return ({ s with
            fcb := { fcb.push outputRange with
              encodeMap := encodeMap
              physicalBitsEncoded := fcb.physicalBitsEncoded + width } }, none)
      | some (first, offset) =>
          let outputRange : FifoCodeOutputRange :=
            ⟨width, fcb.logicalBitsEncoded, false, offset, 0⟩
          return ({
            fcb := fcb.push outputRange
            registerTable := (allocateRegister s.registerTable fifoEncodeRegEq).2
            operations := duplicateAssert r first :: s.operations }, none)
  | some _ => .error .assertion

/-- What is fixed during `CopyToFifo`; `canSkipFifoWrites` is the flag of the local
    registers of that name. -/
structure CopyInput where
  dstFifoIndex : Nat
  destFifoOffsetMap : Std.ExtTreeMap Nat Nat
  sourceRegisterIndexMap : RegisterIndexMap
  originalToRenamedMap : RegisterIndexMap
  canSkipFifoWrites : Nat → Bool

/-- The source of a move into the FIFO: the constant, if the register is known to be one. -/
def moveSource (literalValue : Option Literal) (r : Nat) : SourceOperand :=
  match literalValue with
  | some l => .literal l
  | none => .register r

/-- The body of the loop of `CopyToFifo`. -/
def copyRegister (input : CopyInput) (s : CopyState) (p : Nat × Nat) : Except Failure CopyState := do
  let localRegisterIndex := optionallyMapIndex p.1 input.originalToRenamedMap
  match input.sourceRegisterIndexMap[localRegisterIndex]? with
  | some r =>
      let (s, literalValue) ← encodeReg s r
      let bitWidth := (s.registerTable.desc localRegisterIndex).width
      let movOp : Operation :=
        { opcode := .mov
          src := [moveSource literalValue r]
          dst := [.fifo ⟨input.dstFifoIndex, p.2, bitWidth⟩] }
      return { s with operations := movOp :: s.operations }
  | none =>
      -- There is nothing to write into the fifo at the call site of a predicated call
      assert (input.canSkipFifoWrites localRegisterIndex)
      return s

/-- `CopyToFifo`; `dstCode` is the code the FIFO has so far. -/
def copyToFifo (input : CopyInput) (dstCode : FifoCode) (s : CopyState) :
    Except Failure (CopyState × FifoCode) := do
  let s ← input.destFifoOffsetMap.toList.foldlM (copyRegister input)
    { s with fcb := s.fcb.beginEncode }
  assert (!dstCode.initialized)
  assert (dstCode.encodedWidth == 0)
  assert dstCode.inputRanges.isEmpty
  assert dstCode.outputRanges.isEmpty
  let code ← s.fcb.endEncode
  return (s, code)

/-! ## Words -/

/-- The value of the operand of an emitted move. -/
def operandValue (v : Nat → Nat) : SourceOperand → Nat
  | .literal l => l.value
  | .register r => v r
  | _ => 0

/-- The part of the logical word of a FIFO that an operation writes. -/
def fifoSlice (fifoIndex : Nat) (v : Nat → Nat) (op : Operation) : Option Slice :=
  match op.opcode, op.src, op.dst with
  | .mov, [srcOp], [.fifo f] =>
      if f.registerIndex = fifoIndex then
        some ⟨f.offset, f.width, (operandValue v srcOp).testBit⟩
      else none
  | _, _, _ => none

/-- The logical word of a FIFO that the operations of a stage give. -/
def logicalWord (fifoIndex : Nat) (v : Nat → Nat) (operations : List Operation)
    (word : Nat → Bool) : Nat → Bool :=
  Slice.assignAll word (operations.filterMap (fifoSlice fifoIndex v))

/-- The encoding logic: the physical word of a logical one. -/
def FifoCode.encode (code : FifoCode) (dataIn undriven : Nat → Bool) : Nat → Bool :=
  Slice.assignAll undriven (code.inputRanges.map fun inputRange =>
    ⟨inputRange.encodedOffset, inputRange.width, fun t => dataIn (inputRange.decodedOffset + t)⟩)

/-- The decoding logic: the logical word of a physical one. -/
def FifoCode.decode (code : FifoCode) (encodedDataOut undriven : Nat → Bool) : Nat → Bool :=
  Slice.assignAll undriven (code.outputRanges.map fun outputRange =>
    ⟨outputRange.decodedOffset, outputRange.width, fun t =>
      if outputRange.isLiteral then outputRange.literal.testBit t
      else encodedDataOut (outputRange.encodedOffset + t)⟩)

end Kanagawa.Lower
