/-
  Kanagawa.Lower.CompactRegisters

  The registers that a program still uses get new numbers without gaps
  (`lower.cpp`, `CompactRegisterTable`).

  The source collects pointers to all places that hold a register index, and writes
  through them later.  Here a structure has the list of the indices it holds
  (`references`) and an update of these places (`update`).
-/
import Kanagawa.IR.Basic

namespace Kanagawa.Lower.Compact

open IR (safeInsert safeLookup RegisterIndexMap)
/-! ## Operations -/

/-- `SourceOperand`. -/
inductive SourceOperand where
  | literal (value width : Nat)
  | register (registerIndex : Nat)
  | fifo (registerIndex offset width : Nat)
  | stringLiteral (value : String)

def SourceOperand.references : SourceOperand → List Nat
  | .register registerIndex => [registerIndex]
  | .fifo registerIndex _ _ => [registerIndex]
  | .literal _ _ => []
  | .stringLiteral _ => []

def SourceOperand.update (f : Nat → Except Failure Nat) : SourceOperand → Except Failure SourceOperand
  | .register registerIndex => .register <$> f registerIndex
  | .fifo registerIndex offset width => (.fifo · offset width) <$> f registerIndex
  | .literal value width => .ok (.literal value width)
  | .stringLiteral value => .ok (.stringLiteral value)

/-- `DestinationOperand`. -/
inductive DestinationOperand where
  | register (registerIndex : Nat)
  | fifo (registerIndex offset width : Nat)

def DestinationOperand.references : DestinationOperand → List Nat
  | .register registerIndex => [registerIndex]
  | .fifo registerIndex _ _ => [registerIndex]

def DestinationOperand.update (f : Nat → Except Failure Nat) :
    DestinationOperand → Except Failure DestinationOperand
  | .register registerIndex => .register <$> f registerIndex
  | .fifo registerIndex offset width => (.fifo · offset width) <$> f registerIndex

/-- `EnqueueType`. -/
inductive EnqueueType where
  | default | reorderBuffer | contextSaverCaller | functionCall | contextSaverCallee
  deriving Repr, DecidableEq

/-- The flags of an `Enqueue`, and the fields of an operation that only an `Enqueue` uses. -/
structure Enqueue where
  hasSuccessorBlock : Bool
  successorFifo : Nat
  type : EnqueueType
  reorderSlotRegister : Nat
  renamingTable : RegisterIndexMap
  reverseRenamingTable : RegisterIndexMap

/-- The keys and values of a `RegisterIndexMap`. -/
def mapReferences (registerIndexMap : RegisterIndexMap) : List Nat :=
  registerIndexMap.toList.flatMap fun p => [p.1, p.2]

/-- The update of a register index map: the new entries are inserted one by one. -/
def updateMap (f : Nat → Except Failure Nat) (registerIndexMap : RegisterIndexMap) :
    Except Failure RegisterIndexMap :=
  registerIndexMap.toList.foldlM (fun newMap p => do
    let key ← f p.1
    let value ← f p.2
    safeInsert newMap key value) ∅

/-- If the successor block is known, then the successor fifo is computed later. -/
def Enqueue.references (e : Enqueue) : List Nat :=
  (if !e.hasSuccessorBlock then [e.successorFifo] else []) ++
    ((if e.type == .reorderBuffer then [e.reorderSlotRegister] else []) ++
      (mapReferences e.renamingTable ++ mapReferences e.reverseRenamingTable))

def Enqueue.update (f : Nat → Except Failure Nat) (e : Enqueue) : Except Failure Enqueue := do
  let successorFifo ← if !e.hasSuccessorBlock then f e.successorFifo else .ok e.successorFifo
  let reorderSlotRegister ←
    if e.type == .reorderBuffer then f e.reorderSlotRegister else .ok e.reorderSlotRegister
  let renamingTable ← updateMap f e.renamingTable
  let reverseRenamingTable ← updateMap f e.reverseRenamingTable
  return { e with
    successorFifo := successorFifo
    reorderSlotRegister := reorderSlotRegister
    renamingTable := renamingTable
    reverseRenamingTable := reverseRenamingTable }

/-- The opcodes whose flags hold a register. -/
inductive Opcode where
  | enqueue (flags : Enqueue)
  | enqueueRegisters (fifoIndex : Nat)
  | dequeueRegisters (fifoIndex : Nat)
  | other (opcode : Nat)

def Opcode.references : Opcode → List Nat
  | .enqueue flags => flags.references
  | .enqueueRegisters fifoIndex => [fifoIndex]
  | .dequeueRegisters fifoIndex => [fifoIndex]
  | .other _ => []

def Opcode.update (f : Nat → Except Failure Nat) : Opcode → Except Failure Opcode
  | .enqueue flags => .enqueue <$> flags.update f
  | .enqueueRegisters fifoIndex => .enqueueRegisters <$> f fifoIndex
  | .dequeueRegisters fifoIndex => .dequeueRegisters <$> f fifoIndex
  | .other opcode => .ok (.other opcode)

/-- `Operation`. -/
structure Operation where
  opcode : Opcode
  src : List SourceOperand
  dst : List DestinationOperand

/-- `enumerateCallback`. -/
def Operation.references (op : Operation) : List Nat :=
  op.src.flatMap SourceOperand.references ++
    (op.dst.flatMap DestinationOperand.references ++ op.opcode.references)

def Operation.update (f : Nat → Except Failure Nat) (op : Operation) :
    Except Failure Operation := do
  let src ← op.src.mapM (SourceOperand.update f)
  let dst ← op.dst.mapM (DestinationOperand.update f)
  let opcode ← op.opcode.update f
  return ⟨opcode, src, dst⟩

/-! ## Programs -/

/-- `BasicBlock`. -/
structure BasicBlock where
  startConditionOperations : List Operation
  operations : List Operation
  stages : List (List Operation)
  liveInReg : List Nat
  forcedDeadInReg : List Nat
  returnValueReg : List Nat
  externalOnlyLiveInReg : List Nat
  invocationInstanceRegisterIndex : Option Nat
  intraStageRegisters : List Nat

def BasicBlock.references (basicBlock : BasicBlock) : List Nat :=
  basicBlock.startConditionOperations.flatMap Operation.references ++
    (basicBlock.operations.flatMap Operation.references ++
      (basicBlock.stages.flatMap (·.flatMap Operation.references) ++
        (basicBlock.liveInReg ++ (basicBlock.forcedDeadInReg ++ (basicBlock.returnValueReg ++
          (basicBlock.externalOnlyLiveInReg ++
            basicBlock.invocationInstanceRegisterIndex.toList))))))

def BasicBlock.update (f : Nat → Except Failure Nat) (basicBlock : BasicBlock) :
    Except Failure BasicBlock := do
  let startConditionOperations ← basicBlock.startConditionOperations.mapM (Operation.update f)
  let operations ← basicBlock.operations.mapM (Operation.update f)
  let stages ← basicBlock.stages.mapM (·.mapM (Operation.update f))
  let liveInReg ← basicBlock.liveInReg.mapM f
  let forcedDeadInReg ← basicBlock.forcedDeadInReg.mapM f
  let returnValueReg ← basicBlock.returnValueReg.mapM f
  let externalOnlyLiveInReg ← basicBlock.externalOnlyLiveInReg.mapM f
  let invocationInstanceRegisterIndex ← basicBlock.invocationInstanceRegisterIndex.mapM f
  return { basicBlock with
    startConditionOperations := startConditionOperations
    operations := operations
    stages := stages
    liveInReg := liveInReg
    forcedDeadInReg := forcedDeadInReg
    returnValueReg := returnValueReg
    externalOnlyLiveInReg := externalOnlyLiveInReg
    invocationInstanceRegisterIndex := invocationInstanceRegisterIndex }

/-- `Function`.  `c_invalidAccessedRegisterIndex` is no register: `none`. -/
structure Function where
  basicBlocks : List BasicBlock
  returnFifoRegisterIndex : Option Nat

def Function.references (function : Function) : List Nat :=
  function.basicBlocks.flatMap BasicBlock.references ++ function.returnFifoRegisterIndex.toList

def Function.update (f : Nat → Except Failure Nat) (function : Function) :
    Except Failure Function := do
  let basicBlocks ← function.basicBlocks.mapM (BasicBlock.update f)
  let returnFifoRegisterIndex ← function.returnFifoRegisterIndex.mapM f
  return ⟨basicBlocks, returnFifoRegisterIndex⟩

/-- `LoopGenerator`. -/
structure LoopGenerator where
  counterLocalRegisterIndex : Nat
  threadCountOneRegisterIndex : Nat

def LoopGenerator.references (loopGenerator : LoopGenerator) : List Nat :=
  [loopGenerator.counterLocalRegisterIndex] ++ [loopGenerator.threadCountOneRegisterIndex]

def LoopGenerator.update (f : Nat → Except Failure Nat) (loopGenerator : LoopGenerator) :
    Except Failure LoopGenerator := do
  let counterLocalRegisterIndex ← f loopGenerator.counterLocalRegisterIndex
  let threadCountOneRegisterIndex ← f loopGenerator.threadCountOneRegisterIndex
  return ⟨counterLocalRegisterIndex, threadCountOneRegisterIndex⟩

/-- What of a program holds registers: the functions, the global view functions, the loop
    generators, and the registers of each inspectable and each code coverage variable. -/
structure Holders where
  functions : List Function
  globalViewFunctions : List (String × List Operation)
  loopGenerators : List LoopGenerator
  inspectableVariables : List (List Nat)
  codeCoverageVariables : List (List Nat)

def Holders.references (h : Holders) : List Nat :=
  h.functions.flatMap Function.references ++
    (h.globalViewFunctions.flatMap (fun p => [] ++ p.2.flatMap Operation.references) ++
      (h.loopGenerators.flatMap LoopGenerator.references ++
        (h.inspectableVariables.flatMap id ++ h.codeCoverageVariables.flatMap id)))

def Holders.update (f : Nat → Except Failure Nat) (h : Holders) : Except Failure Holders := do
  let functions ← h.functions.mapM (Function.update f)
  let globalViewFunctions ← h.globalViewFunctions.mapM fun p => do
    let operationList ← p.2.mapM (Operation.update f)
    return (p.1, operationList)
  let loopGenerators ← h.loopGenerators.mapM (LoopGenerator.update f)
  let inspectableVariables ← h.inspectableVariables.mapM (·.mapM f)
  let codeCoverageVariables ← h.codeCoverageVariables.mapM (·.mapM f)
  return ⟨functions, globalViewFunctions, loopGenerators, inspectableVariables,
    codeCoverageVariables⟩

/-- `Program`, with the descriptions of its registers. -/
structure Program (D : Type) extends Holders where
  objectNameToGlobals : List (String × List Nat)
  registerTable : List D

/-! ## The pass -/

/-- One register of the old table: used ones get the next index. -/
def compactStep {D : Type} (usedRegisters : List Nat) (s : RegisterIndexMap × List D)
    (entry : D × Nat) : RegisterIndexMap × List D :=
  if usedRegisters.contains entry.2 then
    (s.1.insert entry.2 s.2.length, s.2 ++ [entry.1])
  else s

/-- The map of old to new registers, and the new table. -/
def buildTable {D : Type} (usedRegisters : List Nat) (registerTable : List D) :
    RegisterIndexMap × List D :=
  registerTable.zipIdx.foldl (compactStep usedRegisters) (∅, [])

/-- What an allocated leaf register gets that is not in the table any more. -/
def deadRegisterIndex : Nat := 0xbeefcafe

/-- `CompactRegisterTable`, with the registers of the allocated leaf registers, which the
    compiler keeps. -/
def compactRegisterTable {D : Type} (program : Program D) (leafRegisters : List Nat) :
    Except Failure (Program D × List Nat) := do
  assert (program.functions.all (·.basicBlocks.all (·.intraStageRegisters.isEmpty)))
  let (registerMap, newRegisterTable) := buildTable program.references program.registerTable
  let holders ← program.toHolders.update (safeLookup registerMap)
  return (⟨holders, program.objectNameToGlobals.map fun p =>
      (p.1, p.2.filterMap (registerMap[·]?)), newRegisterTable⟩,
    leafRegisters.map fun r => registerMap[r]?.getD deadRegisterIndex)

end Kanagawa.Lower.Compact
