/-
  Kanagawa.Optimize.CommonSubexpression

  Common subexpression elimination (`optimize.cpp`).

  An operation whose result an earlier operation of the block has computed already
  becomes a move of this result.  Earlier operations are found by a hash of their
  opcode and sources, and compared one by one.
-/
import Kanagawa.IR.ControlFlow
import Kanagawa.Optimize.LutFixup

namespace Kanagawa.Optimize

open IR

/-! ## Which operations take part -/

/-- `_commonSubexpression` of the opcode table. -/
def doesOpcodeSupportCommonSubexpressionElimination : Opcode → Bool
  | .mov | .unaryOp _ | .binaryOp _ | .select | .gather _ | .lut _ => true
  | _ => false

/-- `OperationUsesOnlyLocalSrcReg`: sources that are not registers do not count. -/
def operationUsesOnlyLocalSrcReg (table : RegisterTable) (op : Operation) : Bool :=
  op.reads.all table.isLocal

/-- `OperationUsesOnlyLocalDstReg`. -/
def operationUsesOnlyLocalDstReg (table : RegisterTable) (op : Operation) : Bool :=
  op.writes.all table.isLocal

/-- `OperationUsesOnlyLocalReg`. -/
def operationUsesOnlyLocalReg (table : RegisterTable) (op : Operation) : Bool :=
  operationUsesOnlyLocalSrcReg table op && operationUsesOnlyLocalDstReg table op

/-- A move that only resizes a register; another one would be replaced by a move again. -/
def isResizingMove (table : RegisterTable) (op : Operation) : Except Failure Bool :=
  match op.dst, op.src with
  | dst :: _, src :: _ =>
      .ok (dst.width table ≠ src.width table && src.register?.isSome)
  | _, _ => .error .assertion

/-- `doesOpSupportCSE`. -/
def doesOpSupportCse (table : RegisterTable) (transformLuts : Bool) (op : Operation) :
    Except Failure Bool :=
  if !doesOpcodeSupportCommonSubexpressionElimination op.opcode then .ok false
  else
    match op.opcode with
    | .lut _ => .ok (transformLuts && operationUsesOnlyLocalReg table op)
    | .mov => do return (← isResizingMove table op) && operationUsesOnlyLocalReg table op
    | _ => .ok (operationUsesOnlyLocalReg table op)

/-! ## Hashes -/

/-- `boost::hash_combine`, with a `size_t` and with an `mp_int`. -/
structure HashCombine where
  size : Nat → Nat → Nat
  mp : Nat → Nat → Nat

/-- `operator<` of source operands compares these, from left to right. -/
def sortKey : SourceOperand → List Nat
  | .literal l => [0, l.value, l.width]
  | .register r => [1, r]
  | .fifo f => [2, f.registerIndex, f.offset, f.width]
  | .stringLiteral s => 3 :: s.toUTF8.toList.map UInt8.toNat

/-- `std::sort` of source operands. -/
def sortOperands (src : List SourceOperand) : List SourceOperand :=
  src.insertionSort fun a b => sortKey a ≤ sortKey b

/-- The loop body of `hashOperands`. -/
def hashOperand (hash : HashCombine) (currHashValue : Nat) :
    SourceOperand → Except Failure Nat
  | .literal l => .ok (hash.mp currHashValue l.value)
  | .register r => .ok (hash.size currHashValue r)
  | .fifo f => .ok (hash.size currHashValue f.registerIndex)
  | .stringLiteral _ => .error .assertion

/-- `hashOperands`. -/
def hashOperands (hash : HashCombine) (srcOperands : List SourceOperand) (currHashValue : Nat) :
    Except Failure Nat :=
  srcOperands.foldlM (hashOperand hash) currHashValue

/-- `OperationHash`.  The constructors of `Opcode` have the order of the enumeration. -/
def operationHash (hash : HashCombine) (op : Operation) : Except Failure Nat :=
  match op.opcode with
  | .lut entries => do
      -- The tables are not hashed: their columns may be permuted
      let result ← hashOperands hash (sortOperands op.src) op.opcode.ctorIdx
      return entries.foldl (fun result entry => hash.size result entry.sources.length) result
  | opcode => hashOperands hash op.src opcode.ctorIdx

/-! ## Operations with the same result -/

/-- `getRegAndBit`. -/
def getRegAndBit (op : Operation) (source : Nat × Nat) : Except Failure (Nat × Nat) :=
  match op.src[source.1]? with
  | some (.register r) => .ok (r, source.2)
  | _ => .error .assertion

/-- The loop over `sourceIndex2`: the column that looks at the same bit. -/
def findColumn (op2 : Operation) (regAndBit1 : Nat × Nat) (sources2 : List (Nat × Nat)) :
    Except Failure (Option Nat) :=
  sources2.zipIdx.foldlM
    (fun found p => do
      let regAndBit2 ← getRegAndBit op2 p.1
      if regAndBit1 = regAndBit2 then
        assert found.isNone
        return some p.2
      else return found) none

/-- `operandMap`, for the columns of the first operation; `none` if one has no equivalent. -/
def operandMap (op1 op2 : Operation) (sources2 : List (Nat × Nat)) :
    List (Nat × Nat) → Except Failure (Option (List Nat))
  | [] => .ok (some [])
  | source :: sources => do
      match ← findColumn op2 (← getRegAndBit op1 source) sources2 with
      | none => return none
      | some column => return (← operandMap op1 op2 sources2 sources).map (column :: ·)

/-- `truthTableRow2`. -/
def truthTableRow2 (operandMap : List Nat) (truthTableRow1 : Nat) : Nat :=
  operandMap.zipIdx.foldl
    (fun row p => if truthTableRow1.testBit p.2 then row ||| 2 ^ p.1 else row) 0

/-- The loop body of `LutOperationsProduceSameResult`. -/
def lutEntriesProduceSameResult (op1 op2 : Operation) (entries : LutEntry × LutEntry) :
    Except Failure Bool := do
  let (le1, le2) := entries
  if le1.sources.length ≠ le2.sources.length then return false
  assert (le1.sources.length ≤ maxLutSources)
  match ← operandMap op1 op2 le2.sources le1.sources with
  | none => return false
  | some operandMap =>
      return (List.range (2 ^ le1.sources.length)).all fun truthTableRow1 =>
        le1.table.testBit truthTableRow1 ==
          le2.table.testBit (truthTableRow2 operandMap truthTableRow1)

/-- `LutOperationsProduceSameResult`. -/
def lutOperationsProduceSameResult (op1 op2 : Operation) (entries1 entries2 : List LutEntry) :
    Except Failure Bool := do
  -- Sign extension is baked into truth tables
  assert (op1.signExtendSourceMask = 0)
  assert (op2.signExtendSourceMask = 0)
  if entries1.length ≠ entries2.length then return false
  (entries1.zip entries2).allM (lutEntriesProduceSameResult op1 op2)

/-- The `switch` of `OperationsProduceSameResult` over the opcode. -/
def flagsMatch : Opcode → Opcode → Except Failure Bool
  | .mov, .mov => .ok true
  | .select, .select => .ok true
  | .unaryOp type1, .unaryOp type2 => .ok (type1 = type2)
  | .binaryOp type1, .binaryOp type2 => .ok (type1 = type2)
  | .gather entries1, .gather entries2 => .ok (entries1 = entries2)
  | _, _ => .error .assertion

/-- The loop body over the sources of `OperationsProduceSameResult`. -/
def sourcesMatch : SourceOperand × SourceOperand → Except Failure Bool
  | (.literal l1, .literal l2) => .ok (l1 = l2)
  | (.register r1, .register r2) => .ok (r1 = r2)
  | (.fifo f1, .fifo f2) => .ok (f1 = f2)
  | (.stringLiteral _, .stringLiteral _) => .error .assertion
  | _ => .ok false

/-- `OperationsProduceSameResult`. -/
def operationsProduceSameResult (table : RegisterTable) (op1 op2 : Operation) :
    Except Failure Bool :=
  if op1.opcode.ctorIdx ≠ op2.opcode.ctorIdx then .ok false
  else if op1.src.length ≠ op2.src.length then .ok false
  else if op1.dst.length ≠ op2.dst.length then .ok false
  else if op1.dst.map (·.width table) ≠ op2.dst.map (·.width table) then .ok false
  else
    match op1.opcode, op2.opcode with
    | .lut entries1, .lut entries2 => lutOperationsProduceSameResult op1 op2 entries1 entries2
    | opcode1, opcode2 =>
        if op1.signExtendSourceMask ≠ op2.signExtendSourceMask then .ok false
        else do
          if !(← flagsMatch opcode1 opcode2) then return false
          (op1.src.zip op2.src).allM sourcesMatch

/-! ## The pass -/

/-- `operationMap`: the operations of the block so far, by their hashes. -/
abbrev OperationMap := Std.ExtTreeMap Nat (List Operation)

/-- `newOp`: a move of the result of an earlier operation. -/
def moveOfResult (result dst : Nat) : Operation :=
  { opcode := .mov, src := [.register result], dst := [.register dst] }

/-- The loop body over the operations of a block. -/
def eliminateOperation (hash : HashCombine) (table : RegisterTable) (transformLuts : Bool)
    (operationMap : OperationMap) (op : Operation) :
    Except Failure (Operation × OperationMap × Bool) :=
  match op.dst with
  | [.register dst] => do
      if !(← doesOpSupportCse table transformLuts op) then return (op, operationMap, false)
      let opHash ← operationHash hash op
      let candidateList := operationMap.getD opHash []
      match ← candidateList.findM? (operationsProduceSameResult table op) with
      | some candidate =>
          match candidate.dst with
          | .register result :: _ => return (moveOfResult result dst, operationMap, true)
          | _ => .error .assertion
      | none => return (op, operationMap.insert opHash (candidateList ++ [op]), false)
  | _ => .ok (op, operationMap, false)

/-- The loop over the operations of a block. -/
def eliminateOperations (hash : HashCombine) (table : RegisterTable) (transformLuts : Bool) :
    OperationMap → List Operation → Except Failure (List Operation × Bool)
  | _, [] => .ok ([], false)
  | operationMap, op :: ops => do
      let (op', operationMap, didChange) ←
        eliminateOperation hash table transformLuts operationMap op
      let (ops', didChangeRest) ← eliminateOperations hash table transformLuts operationMap ops
      return (op' :: ops', didChange || didChangeRest)

/-- The loop body over the blocks. -/
def eliminateInBlock (hash : HashCombine) (table : RegisterTable) (transformLuts : Bool)
    (basicBlock : BasicBlock) : Except Failure (BasicBlock × Bool) := do
  let (operations, didChange) ←
    eliminateOperations hash table transformLuts ∅ basicBlock.operations
  return ({ basicBlock with operations := operations }, didChange)

/-- `CommonSubexpressionElimination`: the function, and whether it changed. -/
def commonSubexpressionElimination (hash : HashCombine) (table : RegisterTable)
    (transformLuts : Bool) (f : Function) : Except Failure (Function × Bool) := do
  let blocks ← f.basicBlocks.mapM (eliminateInBlock hash table transformLuts)
  return (⟨f.start, blocks.map Prod.fst⟩, blocks.any Prod.snd)

end Kanagawa.Optimize
