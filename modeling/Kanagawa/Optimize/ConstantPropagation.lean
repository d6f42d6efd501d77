/-
  Kanagawa.Optimize.ConstantPropagation

  Constant propagation (`optimize.cpp`, `ConstantPropagation`).

  A work list carries the values that registers are known to have from block to
  block.  While it runs, source operands with known values become literals, and
  operations whose sources are all known become moves of a literal.
-/
import Kanagawa.Optimize.DataFlow
import Kanagawa.Optimize.LutFixup

namespace Kanagawa.Optimize

open IR Lib

/-- `RegisterValueMap`: the registers whose value is known. -/
abbrev RegisterValueMap := RegisterMap Literal

/-- How the pass gives up: a failed assertion of its own, or a failure of the arithmetic on
    known values (such as a division by zero). -/
inductive PropagationFailure where
  | assertion
  | arithmetic (failure : Failure)
  deriving Repr, DecidableEq

/-- `assert` in the pass. -/
def check (condition : Bool) : Except PropagationFailure Unit :=
  if condition then .ok () else .error .assertion

/-! ## Maps of known values -/

/-- `Equal`. -/
def equal (src1 src2 : RegisterValueMap) : Bool :=
  src1.size == src2.size && src1.toList.all fun p => src2[p.1]? == some p.2

/-! ## Source operands -/

/-- `AllowLiteralSourceOperand`. -/
def allowLiteralSourceOperand (op : Operation) (sourceOperandIndex : Nat) : Bool :=
  match op.opcode with
  -- The back ends assume that the start condition is in a register
  | .startCondition _ => false
  | .movCrossFunction => false
  -- Only the predicate; the others represent values that are live in other functions
  | .enqueue isPredicated => isPredicated && sourceOperandIndex == 0
  | _ => true

/-- The value of a constant global. -/
def constantGlobal (table : RegisterTable) (r : Nat) : Option Literal :=
  let regDesc := table.desc r
  if regDesc.type = .global ∧ regDesc.isConstant then
    regDesc.initialValue.map fun value => ⟨value, regDesc.width⟩
  else none

/-- `srcValue` of a register. -/
def sourceValue (table : RegisterTable) (registerValues : RegisterValueMap) (r : Nat) :
    Option Literal :=
  match registerValues[r]? with
  | some value => some value
  | none => constantGlobal table r

/-- What the loop over the source operands carries along. -/
structure SourceScan where
  op : Operation
  allSourcesKnown : Bool
  didChangeIR : Bool

/-- The replacement of a source operand; lookup tables should not have literal ones. -/
def replaceByLiteral (op : Operation) (sourceOperandIndex : Nat) (value : Literal) :
    Except PropagationFailure Operation :=
  let op := { op with src := op.src.set sourceOperandIndex (.literal value) }
  match op.opcode with
  | .lut _ => (fixupLutOp op).mapError fun _ => .assertion
  | _ => .ok op

/-- The loop body for a source operand. -/
def propagateSource (table : RegisterTable) (registerValues : RegisterValueMap) (s : SourceScan)
    (sourceOperandIndex : Nat) : Except PropagationFailure SourceScan :=
  match s.op.src[sourceOperandIndex]? with
  | some (.register r) =>
      match sourceValue table registerValues r with
      | some value =>
          if allowLiteralSourceOperand s.op sourceOperandIndex then do
            let op ← replaceByLiteral s.op sourceOperandIndex value
            return { s with op := op, didChangeIR := true }
          else .ok s
      | none => .ok { s with allSourcesKnown := false }
  | some (.literal _) => .ok s
  -- FIFOs and string literals
  | _ => .ok { s with allSourcesKnown := false }

/-! ## Folding -/

/-- `op._src[i].GetLiteral()`. -/
def getLiteral (op : Operation) (i : Nat) : Except PropagationFailure Literal :=
  match op.src[i]? with
  | some (.literal l) => .ok l
  | _ => .error .assertion

/-- The loop body of the `Gather` case. -/
def gatherSource (op : Operation) (entries : List GatherEntry) (combined : Nat)
    (p : SourceOperand × Nat) : Except PropagationFailure Nat := do
  -- Only bits are copied, no sign extension is necessary
  check (!op.shouldSignExtend p.2)
  match entries[p.2]?, p.1 with
  | some entry, .literal srcLiteral =>
      return combined |||
        (truncate (srcLiteral.value >>> entry.sourceOffset : Nat) entry.numBits <<<
          entry.destOffset)
  | _, _ => .error .assertion

/-- `destinationValue` and `doUpdateIR` of an operation whose sources are all known. -/
def destinationValue (op : Operation) (dstWidth : Nat) :
    Except PropagationFailure (Option (Literal × Bool)) :=
  match op.opcode with
  | .mov => do
      let src ← getLiteral op 0
      let value ← (resize src (op.shouldSignExtend 0) dstWidth).mapError .arithmetic
      -- The source is a literal already, so the move is left as it is
      return some (⟨value, dstWidth⟩, false)
  | .clear => .ok (some (⟨0, dstWidth⟩, true))
  | .unaryOp type => do
      let src ← getLiteral op 0
      let value ← (implementUnaryOp src (op.shouldSignExtend 0) type dstWidth).mapError .arithmetic
      return some (⟨value, dstWidth⟩, true)
  | .binaryOp type => do
      let src0 ← getLiteral op 0
      let src1 ← getLiteral op 1
      let value ← (implementBinaryOp src0 src1 dstWidth (op.shouldSignExtend 0)
        (op.shouldSignExtend 1) type).mapError .arithmetic
      return some (⟨value, dstWidth⟩, true)
  | .gather entries => do
      let combined ← op.src.zipIdx.foldlM (gatherSource op entries) 0
      return some (⟨truncate combined dstWidth, dstWidth⟩, true)
  | _ => .ok none

/-- The callback of the pass after the part for `Enqueue`: the operation as it is left, the
    known values behind it, and whether the IR changed. -/
def visitOperation (table : RegisterTable) (registerValues : RegisterValueMap) (op : Operation) :
    Except PropagationFailure (Operation × RegisterValueMap × Bool) := do
  -- Renaming ensures that a destination register never appears in the map
  check (op.writes.all fun r => !registerValues.contains r)
  let scan ← (List.range op.src.length).foldlM (propagateSource table registerValues)
    ⟨op, true, false⟩
  match scan.op.dst with
  | [.register dstReg] =>
      -- Another thread could modify a global
      if scan.allSourcesKnown && (table.desc dstReg).type ≠ .global then
        match ← destinationValue scan.op (table.desc dstReg).width with
        | some (newValue, true) =>
            return ({ opcode := .mov, src := [.literal newValue], dst := [.register dstReg] },
              registerValues.insert dstReg newValue, true)
        | some (newValue, false) =>
            return (scan.op, registerValues.insert dstReg newValue, scan.didChangeIR)
        | none => return (scan.op, registerValues, scan.didChangeIR)
      else return (scan.op, registerValues, scan.didChangeIR)
  | _ => return (scan.op, registerValues, scan.didChangeIR)

/-! ## A block -/

/-! ## The work list -/

end Kanagawa.Optimize
