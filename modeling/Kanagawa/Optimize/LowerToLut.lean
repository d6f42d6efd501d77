/-
  Kanagawa.Optimize.LowerToLut

  Operations as lookup tables (`optimize_lut.cpp`, `LowerToLut`).

  Every bit of the destination gets an entry: which bits of the sources it looks
  at, six at most, and a table of its values.  Extension of the sources, literal
  bits and the amount of a shift are baked into the entries.  A conversion gives
  the entries, or nothing where the operation is left as it is.
-/
import Kanagawa.Optimize.AlgebraicIdentities
import Kanagawa.Optimize.Reduction

namespace Kanagawa.Optimize

open IR

/-! ## Bits of the sources -/

/-- `LutSourceDesc`: a known bit, or a bit of the source operand. -/
inductive LutSourceDesc where
  | literal (literalVal : Bool)
  | bit (srcBitIndex : Nat)
  deriving Repr, DecidableEq

/-- The loop body of `GetSourceOperandDescriptions`. -/
def getSourceOperandDescription (table : RegisterTable) (op : Operation) (srcIdx : Nat)
    (srcOperand : SourceOperand) (srcOperandIndex : Nat) : Except Failure LutSourceDesc :=
  match srcOperand with
  | .literal _ => .literal <$> getLiteralBit op srcOperandIndex srcIdx
  | _ => do
      let srcWidth := srcOperand.width table
      assert (0 < srcWidth)
      if srcIdx < srcWidth then return .bit srcIdx
      else if op.shouldSignExtend srcOperandIndex then return .bit (srcWidth - 1)
      else return .literal false

/-- `GetSourceOperandDescriptions`: how each source affects bit `srcIdx`. -/
def getSourceOperandDescriptions (table : RegisterTable) (op : Operation) (srcIdx : Nat) :
    Except Failure (List LutSourceDesc) :=
  op.src.zipIdx.mapM fun p => getSourceOperandDescription table op srcIdx p.1 p.2

/-- The sources of an entry: the described bits that are not known, numbered in order. -/
def lutSources : List LutSourceDesc → Nat → List (Nat × Nat)
  | [], _ => []
  | .literal _ :: descs, srcOperandIndex => lutSources descs (srcOperandIndex + 1)
  | .bit srcBitIndex :: descs, srcOperandIndex =>
      (srcOperandIndex, srcBitIndex) :: lutSources descs (srcOperandIndex + 1)

/-- The bits that the sources have in a row of the output table, where the bits that are not
    known are those of the row, from bit `numSources` on. -/
def sourceBits : List LutSourceDesc → Nat → Nat → List Bool
  | [], _, _ => []
  | .literal literalVal :: descs, row, numSources => literalVal :: sourceBits descs row numSources
  | .bit _ :: descs, row, numSources =>
      row.testBit numSources :: sourceBits descs row (numSources + 1)

/-- The number whose bits are given (`val << srcOperandIndex`, for each source). -/
def indexOfBits (bits : List Bool) : Nat :=
  bits.zipIdx.foldl (fun (index : Nat) (p : Bool × Nat) => if p.1 then index ||| 2 ^ p.2 else index) 0

/-! ## The conversions -/

/-- The loop body of `ConvertPointwiseOpToLut`. -/
def pointwiseEntry (table : RegisterTable) (op : Operation) (inputTable dstIdx : Nat) :
    Except Failure LutEntry := do
  let sourceDescs ← getSourceOperandDescriptions table op dstIdx
  let sources := lutSources sourceDescs 0
  return ⟨sources, buildTable (2 ^ sources.length) fun outputTableIndex =>
    inputTable.testBit (indexOfBits (sourceBits sourceDescs outputTableIndex 0))⟩

/-- `ConvertPointwiseOpToLut`: bit `i` of the output is affected by bit `i` of the inputs. -/
def convertPointwiseOpToLut (table : RegisterTable) (op : Operation) (inputTable dstWidth : Nat) :
    Except Failure (List LutEntry) := do
  assert (op.src.length ≤ maxLutSources)
  (List.range dstWidth).mapM (pointwiseEntry table op inputTable)

/-- The bit of the source that a left shift brings to bit `dstIdx`, unless that is the
    constant zero. -/
def shlSourceBit (srcWidth shiftAmount : Nat) (lhsSigned : Bool) (dstIdx : Nat) : Option Nat :=
  if dstIdx < shiftAmount then none
  else if dstIdx ≥ srcWidth + shiftAmount then
    -- Replicate the sign bit of the input
    if lhsSigned then some (srcWidth - 1) else none
  else some (dstIdx - shiftAmount)

/-- The bit of the source that a right shift brings to bit `dstIdx`, unless that is the
    constant zero. -/
def shrSourceBit (srcWidth shiftAmount : Nat) (lhsSigned : Bool) (dstIdx : Nat) : Option Nat :=
  if srcWidth ≥ shiftAmount then
    let srcWidthMinusShift := srcWidth - shiftAmount
    if lhsSigned then
      some (if dstIdx ≥ srcWidthMinusShift then srcWidth - 1 else dstIdx + shiftAmount)
    else if dstIdx ≥ srcWidthMinusShift then none
    else some (dstIdx + shiftAmount)
  else if lhsSigned then some (srcWidth - 1)
  else none

/-- The entry of a shift: the constant zero, or one bit of the first source. -/
def shiftEntry (srcWidth : Nat) : Option Nat → Except Failure LutEntry
  | none => .ok ⟨[], 0⟩
  | some srcBit => do
      assert (srcBit < srcWidth)
      -- Pass through
      return ⟨[(0, srcBit)], 2⟩

/-- `ConvertShiftOpToLut`: a shift by a literal amount. -/
def convertShiftOpToLut (table : RegisterTable) (op : Operation) (type : BinaryOpType)
    (dstWidth : Nat) : Except Failure (Option (List LutEntry)) := do
  -- Signed shift amounts are reinterpreted as unsigned
  assert (!op.shouldSignExtend 1)
  match op.src with
  | [.literal _, _] => return none
  | [src0, .literal amount] => do
      let shiftAmount ← mpToSizeT amount.value
      let srcWidth := src0.width table
      let lhsSigned := op.shouldSignExtend 0
      let sourceBit := if type = .shl then shlSourceBit srcWidth shiftAmount lhsSigned
        else shrSourceBit srcWidth shiftAmount lhsSigned
      some <$> (List.range dstWidth).mapM fun dstIdx => shiftEntry srcWidth (sourceBit dstIdx)
  | [_, _] => return none
  | _ => .error .assertion

/-- `inputBitCount`. -/
def inputBitCount (table : RegisterTable) (src : List SourceOperand) : Nat :=
  (src.map fun srcOp => if (srcOp.register?).isSome then srcOp.width table else 0).sum

/-- The values the sources have in a row of the output table, which holds those that are
    not literals one after the other. -/
def rowValues (table : RegisterTable) : List SourceOperand → Nat → Nat → List Literal
  | [], _, _ => []
  | .literal l :: src, row, offset => l :: rowValues table src row offset
  | srcOp :: src, row, offset =>
      ⟨(row >>> offset) &&& (2 ^ srcOp.width table - 1), srcOp.width table⟩ ::
        rowValues table src row (offset + srcOp.width table)

/-- `outputTableOffset` after all sources. -/
def rowWidth (table : RegisterTable) (src : List SourceOperand) : Nat :=
  (src.map fun srcOp => match srcOp with | .literal _ => 0 | _ => srcOp.width table).sum

/-- Every bit of every register among the sources, from operand `srcOpIdx` on. -/
def registerBits (table : RegisterTable) : List SourceOperand → Nat → List (Nat × Nat)
  | [], _ => []
  | .register r :: src, srcOpIdx =>
      ((List.range (table.desc r).width).map fun i => (srcOpIdx, i)) ++
        registerBits table src (srcOpIdx + 1)
  | _ :: src, srcOpIdx => registerBits table src (srcOpIdx + 1)

/-- `ImplementBinaryOp` on the values of a row. -/
def rowResult (op : Operation) (type : BinaryOpType) (dstWidth : Nat) :
    List Literal → Except Failure Nat
  | [src0, src1] =>
      implementBinaryOp src0 src1 dstWidth (op.shouldSignExtend 0) (op.shouldSignExtend 1) type
  | _ => .error .assertion

/-- The entry of bit `dstIdx` of tabulated results. -/
def resultEntry (sources : List (Nat × Nat)) (resultTable : List Nat) (dstIdx : Nat) :
    Except Failure LutEntry := do
  let resultBits ← resultTable.mapM fun resultVal => bitTest resultVal dstIdx
  return ⟨sources, buildTable resultTable.length fun outputTableIndex =>
    resultBits.getD outputTableIndex false⟩

/-- `ConvertBinaryOpToLut`: all results, if the registers have few enough bits. -/
def convertBinaryOpToLut (table : RegisterTable) (op : Operation) (type : BinaryOpType)
    (dstWidth : Nat) : Except Failure (Option (List LutEntry)) :=
  if inputBitCount table op.src ≤ maxLutSources then do
    assert (rowWidth table op.src = inputBitCount table op.src)
    let resultTable ← (List.range (2 ^ inputBitCount table op.src)).mapM fun row =>
      rowResult op type dstWidth (rowValues table op.src row 0)
    some <$> (List.range dstWidth).mapM (resultEntry (registerBits table op.src 0) resultTable)
  else return none

/-- `IsPow2`. -/
def isPow2 (input : Nat) : Bool := 0 < input && input &&& (input - 1) == 0

/-- A loop over the bits of the destination that ends with nothing once a bit gets nothing. -/
def convertBits {α : Type} (f : Nat → Except Failure (Option α)) :
    List Nat → Except Failure (Option (List α))
  | [] => .ok (some [])
  | dstIdx :: rest => do
      match ← f dstIdx with
      | none => return none
      | some entry => Option.map (entry :: ·) <$> convertBits f rest

/-- The loop body of `ConvertSelectOpToLut`. -/
def selectEntry (table : RegisterTable) (op : Operation) (numIndexBits dstIdx : Nat) :
    Except Failure (Option LutEntry) := do
  let sourceDescs ← getSourceOperandDescriptions table op dstIdx
  let choiceDescs := sourceDescs.tail
  let sources := ((List.range numIndexBits).map fun i => (0, i)) ++ lutSources choiceDescs 1
  -- Too many non-literal source operands
  if sources.length > maxLutSources then return none
  else
    return some ⟨sources, buildTable (2 ^ sources.length) fun outputValue =>
      let index := outputValue &&& (2 ^ numIndexBits - 1)
      let choiceBits := indexOfBits (sourceBits choiceDescs outputValue numIndexBits)
      choiceBits.testBit index⟩

/-- `ConvertSelectOpToLut`. -/
def convertSelectOpToLut (table : RegisterTable) (op : Operation) (dstWidth : Nat) :
    Except Failure (Option (List LutEntry)) :=
  match op.src with
  | .register r :: choices => do
      let numChoices := choices.length
      assert (isPow2 numChoices)
      let numIndexBits := numChoices.log2
      assert (numIndexBits ≤ (table.desc r).width)
      convertBits (selectEntry table op numIndexBits) (List.range dstWidth)
  | _ :: _ => return none
  | [] => .error .assertion

/-- A bit that a `Gather` copies. -/
structure GatherBit where
  srcOp : SourceOperand
  srcOperandIndex : Nat
  srcBit : Nat
  dstBit : Nat

/-- The bits that a `Gather` copies, in the order of the loops of `ConvertGatherOpToLut`. -/
def gatherBitList (op : Operation) (gatherEntries : List GatherEntry) : List GatherBit :=
  (op.src.zip gatherEntries).zipIdx.flatMap fun p =>
    (List.range p.1.2.numBits).map fun j =>
      ⟨p.1.1, p.2, p.1.2.sourceOffset + j, p.1.2.destOffset + j⟩

/-- The entry of a copied bit. -/
def gatherLutEntry (op : Operation) (b : GatherBit) : Except Failure LutEntry :=
  match b.srcOp with
  | .literal _ => do
      let value ← getLiteralBit op b.srcOperandIndex b.srcBit
      return ⟨[], value.toNat⟩
  -- Pass through
  | _ => return ⟨[(b.srcOperandIndex, b.srcBit)], 2⟩

/-- The loop body of `ConvertGatherOpToLut`. -/
def gatherStep (op : Operation) (dstWidth : Nat) (entries : List LutEntry) (b : GatherBit) :
    Except Failure (List LutEntry) := do
  assert (b.dstBit < dstWidth)
  let entry ← gatherLutEntry op b
  return entries.set b.dstBit entry

/-- `ConvertGatherOpToLut`. -/
def convertGatherOpToLut (op : Operation) (gatherEntries : List GatherEntry) (dstWidth : Nat) :
    Except Failure (List LutEntry) := do
  assert (gatherEntries.length = op.src.length)
  (gatherBitList op gatherEntries).foldlM (gatherStep op dstWidth) (List.replicate dstWidth ⟨[], 0⟩)

/-! ## The pass -/

/-- The binary operators of `LowerToLut`. -/
def binaryOpToLut (table : RegisterTable) (op : Operation) (type : BinaryOpType) (dstWidth : Nat) :
    Except Failure (Option (List LutEntry)) := do
  assert (op.src.length = 2)
  match type with
  | .and => some <$> convertPointwiseOpToLut table op 8 dstWidth
  | .or => some <$> convertPointwiseOpToLut table op 14 dstWidth
  | .xor => some <$> convertPointwiseOpToLut table op 6 dstWidth
  | .shl | .shr => do
      match ← convertShiftOpToLut table op type dstWidth with
      | some entries => return some entries
      | none => convertBinaryOpToLut table op type dstWidth
  | _ => convertBinaryOpToLut table op type dstWidth

/-- The `switch` of `LowerToLut`. -/
def convertToLut (table : RegisterTable) (op : Operation) (dstWidth : Nat) :
    Except Failure (Option (List LutEntry)) :=
  match op.opcode with
  | .mov => do
      assert (op.src.length = 1)
      some <$> convertPointwiseOpToLut table op 2 dstWidth
  | .clear => do
      assert (op.src.length = 0)
      some <$> convertPointwiseOpToLut table op 0 dstWidth
  | .unaryOp type => do
      assert (op.src.length = 1)
      assert (type = .invert)
      some <$> convertPointwiseOpToLut table op 1 dstWidth
  | .binaryOp type => binaryOpToLut table op type dstWidth
  | .select => convertSelectOpToLut table op dstWidth
  | .gather gatherEntries => some <$> convertGatherOpToLut op gatherEntries dstWidth
  | .lut entries => return some entries
  | _ => .error .assertion

/-- `LowerToLut`: whether the operation is a lookup table now, and the operation. -/
def lowerToLut (table : RegisterTable) (op : Operation) : Except Failure (Bool × Operation) :=
  match op.dst with
  | [dst] => do
      match ← convertToLut table op (dst.width table) with
      -- The sign extension is baked into the entries
      | some entries => return (true, { op with opcode := .lut entries, signExtendSourceMask := 0 })
      | none => return (false, op)
  | _ => .error .assertion

end Kanagawa.Optimize
