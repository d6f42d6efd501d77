/-
  Kanagawa.Optimize.PackLuts

  Packing operations into lookup tables (`optimize_lut.cpp`, `PackLuts`).

  A walk over each block folds the operation that defines an operand into the
  operation that reads it, as long as this gets somewhere.  `LocalDefUseTracker`
  maps registers to the operations that define them: a definition is the position
  of an operation in the block, so that it is seen as it is when it is looked up.
-/
import Kanagawa.Optimize.CombineLuts

namespace Kanagawa.Optimize

open IR

/-! ## Opcodes -/

/-- `CanOpcodeBeLoweredToLut`, and `_lowerToLut` of the opcode table. -/
def canOpcodeBeLoweredToLut : Opcode → Bool
  | .mov | .clear | .unaryOp _ | .binaryOp _ | .select | .gather _ | .lut _ => true
  | _ => false

/-- `DoesOpcodeImplyOptimizationBarrier`, and `_optimizationBarrier` of the opcode table. -/
def doesOpcodeImplyOptimizationBarrier : Opcode → Bool
  | .beginAtomic _ | .endAtomic _ | .print | .debugView => true
  | _ => false

/-! ## Definitions and uses -/

namespace LocalDefUseTracker

/-- `_definitionMap`: the position of the operation that wrote a register. -/
abbrev DefinitionMap := Std.ExtTreeMap Nat Nat

/-- `ComputeRegisterReadCountMap`: how often the operations of a block name a register as a
    source. -/
def registerReadCount (operations : List Operation) (registerIndex : Nat) : Nat :=
  (operations.flatMap Operation.reads).count registerIndex

/-- The loop over the destinations of an operation. -/
def insertDefinitions (definitionMap : DefinitionMap) (dst : List DestinationOperand)
    (position : Nat) : Except Failure DefinitionMap :=
  dst.foldlM
    (fun definitionMap dstOp =>
      match dstOp with
      | .register registerIndex => safeInsert definitionMap registerIndex position
      | .fifo _ => .error .assertion) definitionMap

/-- `HandleOperation`. -/
def handleOperation (table : RegisterTable) (definitionMap : DefinitionMap)
    (operation : Operation) (position : Nat) (trackDef : Bool) : Except Failure DefinitionMap :=
  let definitionMap :=
    if doesOpcodeImplyOptimizationBarrier operation.opcode then ∅ else definitionMap
  -- Only operations that reference only local registers
  if trackDef && operationUsesOnlyLocalReg table operation then
    insertDefinitions definitionMap operation.dst position
  else .ok definitionMap

/-- `GetDef`. -/
def getDef (table : RegisterTable) (definitionMap : DefinitionMap) (registerIndex : Nat) :
    Except Failure (Option Nat) :=
  match definitionMap[registerIndex]? with
  | none => .ok none
  | some position => do
      assert ((table.desc registerIndex).type == .local)
      return some position

/-- `GetUseCount`; `SafeLookup` of the read counts. -/
def getUseCount (operations : List Operation) (registerIndex : Nat) : Except Failure Nat :=
  if registerReadCount operations registerIndex = 0 then
    .error (.runtimeError "Failed to lookup value in a map")
  else .ok (registerReadCount operations registerIndex)

end LocalDefUseTracker

open LocalDefUseTracker

/-! ## One operation -/

/-- A computation that may run out of fuel; that is the failure `none`. -/
abbrev Packing := Except (Option Failure)

def Packing.lift {α : Type} (result : Except Failure α) : Packing α := result.mapError some

def Packing.liftFuel {α : Type} : Option (Except Failure α) → Packing α
  | none => .error none
  | some result => .lift result

section

variable (fuel : Nat) (table : RegisterTable) (operations : List Operation)
  (maxSources : Nat)

/-- The operation that a source register is merged with, and its position: the only reader of
    its result is this source. -/
def mergeCandidate (earlier : List Operation) (definitionMap : DefinitionMap) (op : Operation)
    (prevOperationSet : List Nat) (srcReg : Nat) : Except Failure (Option (Operation × Nat)) := do
  let definition ← getDef table definitionMap srcReg
  let numReads ← getUseCount operations srcReg
  match definition with
  | none => return none
  | some position =>
      if numReads = 1 then
        match (earlier ++ [op])[position]? with
        | none => .error .assertion
        | some prevOperation => do
            assert (table.isLocal srcReg)
            assert (canOpcodeBeLoweredToLut prevOperation.opcode)
            -- Renaming ensures that none of its sources have been overwritten
            assert (operationUsesOnlyLocalSrcReg table prevOperation)
            return if position ∈ prevOperationSet then none else some (prevOperation, position)
      else return none

/-- The loop over the sources: the operation after the first merge that succeeds, and the
    position of what was merged. -/
def combineSource (earlier : List Operation) (definitionMap : DefinitionMap)
    (op : Operation) (prevOperationSet : List Nat) :
    List Nat → Packing (Option (Operation × Nat))
  | [] => .ok none
  | srcOpIdx :: rest =>
      match op.src[srcOpIdx]? with
      | some (.register srcReg) => do
          match ← Packing.lift
              (mergeCandidate table operations earlier definitionMap op prevOperationSet srcReg)
            with
          | none => combineSource earlier definitionMap op prevOperationSet rest
          | some (prevOperation, position) => do
              let (combined, op') ← Packing.liftFuel
                (combineLuts fuel table op prevOperation srcOpIdx maxSources)
              if combined then return some (op', position)
              else combineSource earlier definitionMap op prevOperationSet rest
      | _ => combineSource earlier definitionMap op prevOperationSet rest

/-- The `do` loop over an operation. -/
def packOperation (earlier : List Operation) (definitionMap : DefinitionMap) :
    Nat → List Nat → Operation → Packing Operation
  | 0, _, _ => .error none
  | rounds + 1, prevOperationSet, op => do
      match ← combineSource fuel table operations maxSources earlier definitionMap op
          prevOperationSet (List.range op.src.length) with
      | none => return op
      | some (op', position) =>
          packOperation earlier definitionMap rounds (position :: prevOperationSet) op'

/-! ## The pass -/

/-- The loop over the operations of a block. -/
def packOperations : DefinitionMap → List Operation → List Operation → Packing (List Operation)
  | _, earlier, [] => .ok earlier
  | definitionMap, earlier, op :: rest => do
      let definitionMap ← Packing.lift
        (handleOperation table definitionMap op earlier.length (canOpcodeBeLoweredToLut op.opcode))
      if canOpcodeBeLoweredToLut op.opcode then do
        let op' ← packOperation fuel table operations maxSources earlier definitionMap fuel [] op
        packOperations definitionMap (earlier ++ [op']) rest
      else packOperations definitionMap (earlier ++ [op]) rest

end

/-- The loop body for a basic block. -/
def packBlock (fuel : Nat) (table : RegisterTable) (maxSources : Nat)
    (operations : List Operation) : Packing (List Operation) :=
  packOperations fuel table operations maxSources ∅ [] operations

/-- `OptimizationPhase`. -/
inductive OptimizationPhase where
  | start | packLuts1 | packLuts2 | lutCommonSub | synthesis
  deriving Repr, DecidableEq

/-- `_supportsLuts` and `_smallLutSize`. -/
structure LutConfig where
  supportsLuts : Bool
  smallLutSize : Nat

/-- `PackLuts`, on the operations of the blocks of a function. -/
def packLuts (fuel : Nat) (config : LutConfig) (phase : OptimizationPhase) (table : RegisterTable)
    (blocks : List (List Operation)) : Packing (List (List Operation)) :=
  -- During the initial phase, no luts are added
  if phase = .start then .ok blocks
  else if !config.supportsLuts then .ok blocks
  else
    let maxSources := if phase = .packLuts1 then config.smallLutSize else maxLutSources
    blocks.mapM (packBlock fuel table maxSources)

end Kanagawa.Optimize
