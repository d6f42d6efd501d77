/-
  Kanagawa.Lower.LiveIn

  The local registers that are live at the start of basic blocks (`lower.cpp`).

  `ComputeLiveInMap` goes through the operations of a block in reverse.  At an
  `Enqueue` it adds what is live at the successor, under the names that the
  renaming table gives, and erases what the successor gets from elsewhere.
-/
import Kanagawa.IR.ControlFlow
import Kanagawa.Lib.SetEquations

namespace Kanagawa.Lower

open IR Lib

/-- What the analysis reads of a block that an `Enqueue` leads to. -/
structure SuccessorDesc where
  /-- `IsAsyncCallEntryPoint`. -/
  isAsyncCallEntryPoint : Bool := false
  /-- The block is in `returnSites`. -/
  isReturnSite : Bool := false
  liveInReg : List Nat := []
  forcedDeadInReg : List Nat := []
  invocationInstanceRegisterIndex : Option Nat := none
  returnValueReg : List Nat := []
  deriving Repr, DecidableEq

/-- A function to analyze, in its program: blocks from `basicBlocks.length` on are those of
    other functions. -/
structure LiveInContext where
  table : RegisterTable
  function : IR.Function
  mode : OperationEnumerationMode
  successorDesc : Nat → SuccessorDesc
  /-- `op._flags._enqueue._type`. -/
  enqueueType : Operation → EnqueueType

/-- `RegisterSetMap`. -/
abbrev RegisterSetMap := Nat → Finset Nat

namespace LiveInContext

variable (context : LiveInContext)

def blockCount : Nat := context.function.basicBlocks.length

/-- The operations of a block. -/
def operations (b : Nat) : List Operation :=
  match context.function.basicBlocks[b]? with
  | some basicBlock => basicBlock.operationsIn context.mode
  | none => []

/-- The local registers that an operation reads. -/
def localReads (op : Operation) : Finset Nat :=
  (op.reads.filter fun r => context.table.isLocal r).toFinset

/-- The local registers that an operation writes. -/
def localWrites (op : Operation) : Finset Nat :=
  (op.writes.filter fun r => context.table.isLocal r).toFinset

/-- The invocation instance id, which an `Enqueue` into a context saver allocates. -/
def allocatedInstance (op : Operation) (desc : SuccessorDesc) : Finset Nat :=
  match context.enqueueType op, desc.invocationInstanceRegisterIndex with
  | .contextSaverCaller, some registerIndex =>
      {op.mapOriginalToRenamedRegisterIndex registerIndex}
  | _, _ => ∅

/-- `GetLiveInToSuccessor`. -/
def getLiveInToSuccessor (op : Operation) (successor : Nat) (liveInMap : RegisterSetMap)
    (liveInToSuccessor : Finset Nat) : Finset Nat :=
  let desc := context.successorDesc successor
  let renamed := op.mapOriginalToRenamedRegisterIndex
  let liveInToSuccessor :=
    if desc.isAsyncCallEntryPoint then liveInToSuccessor
    else
      let live := liveInToSuccessor ∪ (liveInMap successor).image renamed
      let live := live ∪ (desc.liveInReg.map renamed).toFinset
      let live := live \ (desc.forcedDeadInReg.map renamed).toFinset
      live \ context.allocatedInstance op desc
  -- The caller does not supply return values
  if desc.isReturnSite ∧ successor < context.blockCount then
    liveInToSuccessor \ (desc.returnValueReg.map renamed).toFinset
  else liveInToSuccessor

/-- One operation of the reverse loop. -/
def visitOperation (liveInMap : RegisterSetMap) (op : Operation) (liveRegisters : Finset Nat) :
    Finset Nat :=
  let liveRegisters := liveRegisters \ context.localWrites op
  let liveRegisters := liveRegisters ∪ context.localReads op
  match op.successorBlock with
  | some successor => context.getLiveInToSuccessor op successor liveInMap liveRegisters
  | none => liveRegisters

/-- The registers that are live before some operations. -/
def liveBefore (liveInMap : RegisterSetMap) (ops : List Operation) : Finset Nat :=
  ops.foldr (context.visitOperation liveInMap) ∅

/-- `GetPredecessors`. -/
def predecessors (b : Nat) : List Nat :=
  (List.range context.blockCount).filter fun a =>
    (context.operations a).any fun op => op.successorBlock = some b

/-- `ComputeLiveInMap`. -/
def computeLiveInMap (fuel : Nat) (liveInMap : RegisterSetMap) :
    Option (Except Failure RegisterSetMap) :=
  WorkList.run
    (SetEquations.step (fun liveInMap b => context.liveBefore liveInMap (context.operations b))
      context.predecessors)
    fuel (List.range context.blockCount) liveInMap

end LiveInContext

end Kanagawa.Lower
