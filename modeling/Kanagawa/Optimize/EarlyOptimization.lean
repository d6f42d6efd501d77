/-
  Kanagawa.Optimize.EarlyOptimization

  Optimization before renaming (`optimize.cpp`, `EarlyOptimization`).

  A pass forward through each block replaces sources by what was moved into them.
  Registers may be written many times: a sequence number per register tells whether
  the source of a move has been written since.  Then operations are deleted whose
  results no operation of the function reads.
-/
import Kanagawa.Optimize.ConstantPropagation

namespace Kanagawa.Optimize

open IR

/-! ## Copy propagation -/

/-- `checkRegs`. -/
def checkRegs (table : RegisterTable) (op : Operation) : Bool :=
  (op.reads ++ op.writes).all fun r => (table.desc r).type.allowedInKillMoves

/-- `regIndexToSequenceNumber` and `regIndexToEquivalentOperand`. -/
structure EarlyState where
  sequenceNumbers : RegisterMap Nat
  equivalentOperands : RegisterMap (SourceOperand × Nat)

namespace EarlyState

/-- `regIndexToSequenceNumber[registerIndex]`: zero if there is no entry. -/
def sequenceNumber (s : EarlyState) (registerIndex : Nat) : Nat :=
  s.sequenceNumbers.getD registerIndex 0

/-- What stands in the place of a source operand. -/
def forwardSource (s : EarlyState) (op : Operation) (sourceOperandIndex : Nat)
    (srcOp : SourceOperand) : SourceOperand :=
  match srcOp with
  | .register r =>
      match s.equivalentOperands[r]? with
      | some (.literal l, _) =>
          if allowLiteralSourceOperand op sourceOperandIndex then .literal l else srcOp
      | some (.register replacement, n) =>
          -- The replacement must not have been written since the move
          if n = s.sequenceNumber replacement then .register replacement else srcOp
      | _ => srcOp
  | _ => srcOp

/-- The loop over the sources of an operation. -/
def forwardSources (s : EarlyState) (table : RegisterTable) (op : Operation) : Operation :=
  if checkRegs table op && !op.opcode.preserveInputReg then
    { op with src := op.src.mapIdx (s.forwardSource op) }
  else op

/-- The loop body over the destinations of an operation. -/
def writeDestination (s : EarlyState) (dstReg : Nat) : EarlyState where
  equivalentOperands := s.equivalentOperands.erase dstReg
  sequenceNumbers := s.sequenceNumbers.insert dstReg (s.sequenceNumber dstReg + 1)

/-- The loop over the destinations of an operation. -/
def writeRegisters (s : EarlyState) (op : Operation) : EarlyState :=
  op.writes.foldl writeDestination s

def setEquivalent (s : EarlyState) (dstReg : Nat) (operand : SourceOperand) (n : Nat) :
    EarlyState :=
  { s with equivalentOperands := s.equivalentOperands.insert dstReg (operand, n) }

/-- Records what a `Mov` or a `Clear` makes equivalent. -/
def recordMove (s : EarlyState) (table : RegisterTable) (op : Operation) :
    Except Failure EarlyState :=
  match op.opcode with
  | .mov =>
      match op.dst, op.src with
      | .register dstReg :: _, src :: _ =>
          if checkRegs table op then
            match src with
            | .literal l => do
                let value ← resize l (op.shouldSignExtend 0) (table.desc dstReg).width
                return s.setEquivalent dstReg (.literal ⟨value, (table.desc dstReg).width⟩) 0
            | .register r =>
                if (table.desc dstReg).width = (table.desc r).width then
                  .ok (s.setEquivalent dstReg src (s.sequenceNumber r))
                else .ok s
            | _ => .ok s
          else .ok s
      | .fifo _ :: _, _ => .ok s
      | _, _ => .error .assertion
  | .clear =>
      if checkRegs table op then do
        assert (op.dst.length = 1)
        match op.dst with
        | .register dstReg :: _ =>
            return s.setEquivalent dstReg (.literal ⟨0, (table.desc dstReg).width⟩) 0
        | _ => return s
      else .ok s
  | _ => .ok s

/-- The callback of the forward pass. -/
def forwardOperation (s : EarlyState) (table : RegisterTable) (op : Operation) :
    Except Failure (Operation × EarlyState) := do
  let op := s.forwardSources table op
  let s ← (s.writeRegisters op).recordMove table op
  return (op, s)

/-- The callback on some operations. -/
def forwardOperations (table : RegisterTable) :
    EarlyState → List Operation → Except Failure (List Operation × EarlyState)
  | s, [] => .ok ([], s)
  | s, op :: ops => do
      let (op, s) ← s.forwardOperation table op
      let (ops, s) ← forwardOperations table s ops
      return (op :: ops, s)

/-- The callback on the operations of some stages. -/
def forwardStages (table : RegisterTable) :
    EarlyState → List Stage → Except Failure (List Stage × EarlyState)
  | s, [] => .ok ([], s)
  | s, stage :: stages => do
      let (operations, s) ← forwardOperations table s stage.operations
      let (stages, s) ← forwardStages table s stages
      return ({ stage with operations := operations } :: stages, s)

end EarlyState

/-- The forward pass through a block. -/
def forwardBlock (table : RegisterTable) (basicBlock : BasicBlock) : Except Failure BasicBlock := do
  let (startConditionOperations, s) ←
    EarlyState.forwardOperations table ⟨∅, ∅⟩ basicBlock.startConditionOperations
  let (operations, s) ← EarlyState.forwardOperations table s basicBlock.operations
  let (stages, _) ← EarlyState.forwardStages table s basicBlock.stages
  return ⟨startConditionOperations, operations, stages⟩

/-! ## Dead code elimination -/

/-- What an operation uses; `liveInReg` gives the `_liveInReg` of a block, also in other
    functions. -/
def usedBy (liveInReg : Nat → List Nat) (op : Operation) : List Nat :=
  op.reads ++
    match op.successorBlock with
    | some successor => liveInReg successor
    | none => []

/-- `usedRegisters`. -/
def usedRegisters (liveInReg : Nat → List Nat) (f : Function) : List Nat :=
  f.basicBlocks.flatMap fun basicBlock => basicBlock.allOperations.flatMap (usedBy liveInReg)

/-- `isLive` of an operation. -/
def isUsed (used : List Nat) (op : Operation) : Bool :=
  op.opcode.isLive || op.writes.any fun r => used.contains r

/-- The loop body over the blocks: appended stages are not modified. -/
def removeUnusedFromBlock (used : List Nat) (basicBlock : BasicBlock) : BasicBlock :=
  { basicBlock with
    startConditionOperations := basicBlock.startConditionOperations.filter (isUsed used)
    operations := basicBlock.operations.filter (isUsed used) }

/-- The operations that can be removed. -/
def countOperations (f : Function) : Nat :=
  (f.basicBlocks.map fun basicBlock =>
    basicBlock.startConditionOperations.length + basicBlock.operations.length).sum

/-- The body of the loop that removes operations. -/
def removeUnused (liveInReg : Nat → List Nat) (f : Function) : Function :=
  { f with basicBlocks := f.basicBlocks.map (removeUnusedFromBlock (usedRegisters liveInReg f)) }

/-- The loop that removes operations, until none is removed. -/
def removeUnusedLoop (liveInReg : Nat → List Nat) : Nat → Function → Option Function
  | 0, _ => none
  | fuel + 1, f =>
      let f' := removeUnused liveInReg f
      let numOperationsRemoved := countOperations f - countOperations f'
      if 0 < numOperationsRemoved then removeUnusedLoop liveInReg fuel f' else some f'

/-- `EarlyOptimization` of a function; `none` when the fuel does not suffice. -/
def earlyOptimization (table : RegisterTable) (liveInReg : Nat → List Nat) (fuel : Nat)
    (f : Function) : Option (Except Failure Function) :=
  match f.basicBlocks.mapM (forwardBlock table) with
  | .error e => some (.error e)
  | .ok basicBlocks => (removeUnusedLoop liveInReg fuel ⟨f.start, basicBlocks⟩).map .ok

end Kanagawa.Optimize
