/-
  Kanagawa.Optimize.DataFlowAnalysis

  The generic data-flow solver (`data_flow_work_list.h`).

  For each block a map from registers to what is known about them, at the end of
  the block in the direction of the analysis.  It is computed from the maps of the
  blocks before it in this direction, as far as these have been processed, and the
  operations of the block.
-/
import Kanagawa.Optimize.DataFlow

namespace Kanagawa.Optimize

open IR Lib

/-- `Direction`. -/
inductive Direction where
  | forward | backward
  deriving Repr, DecidableEq

/-- The parameters of `DataFlowAnalysis`.  Blocks are numbered as in `Function`. -/
structure DataFlowAnalysis (T : Type) where
  table : RegisterTable
  function : IR.Function
  mode : OperationEnumerationMode
  direction : Direction
  /-- The number of `_basicBlocks.front()`. -/
  front : Nat
  /-- The number of `_basicBlocks.back()`. -/
  back : Nat
  /-- `TranslateRegisterIndex`, from a block to a block, by the control flow graph. -/
  translateRegisterIndex : Nat → Nat → Nat → Option Nat
  /-- `translateCb`, from a block to a block. -/
  translateCb : T → Nat → Nat → T
  joinCb : T → T → T
  opCallback : Operation → RegisterMap T → RegisterMap T

/-- `_basicBlockMaps` and `_processedBasicBlocks`. -/
structure DataFlowState (T : Type) where
  basicBlockMaps : Nat → RegisterMap T
  processedBasicBlocks : Nat → Bool

namespace DataFlowAnalysis

variable {T : Type} [DecidableEq T] (analysis : DataFlowAnalysis T)

def blockCount : Nat := analysis.function.basicBlocks.length

/-- The operations of a block, in the order of `ForEachOperationForward`. -/
def operations (b : Nat) : List Operation :=
  match analysis.function.basicBlocks[b]? with
  | some basicBlock => basicBlock.operationsIn analysis.mode
  | none => []

/-- An `Enqueue` of one block leads to another block of the function. -/
def leadsTo (b c : Nat) : Bool := (analysis.operations b).any fun op => op.successorBlock = some c

/-- `GetSuccessors`. -/
def getSuccessors (b : Nat) : List Nat :=
  (List.range analysis.blockCount).filter fun c => analysis.leadsTo b c

/-- `GetPredecessors`. -/
def getPredecessors (b : Nat) : List Nat :=
  (List.range analysis.blockCount).filter fun c => analysis.leadsTo c b

/-- The blocks whose maps a block gets. -/
def otherBbs (b : Nat) : List Nat :=
  match analysis.direction with
  | .forward => analysis.getPredecessors b
  | .backward => analysis.getSuccessors b

/-- The blocks that are added to the work list when the map of a block changes. -/
def dependents (b : Nat) : List Nat :=
  match analysis.direction with
  | .forward => analysis.getSuccessors b
  | .backward => analysis.getPredecessors b

/-- The operations of a block, in the direction of the analysis. -/
def directedOperations (b : Nat) : List Operation :=
  match analysis.direction with
  | .forward => analysis.operations b
  | .backward => (analysis.operations b).reverse

/-- The loop over `otherRegisterMap`: the map of a block under the names of another one. -/
def translateRegisterMap (otherBb bb : Nat) (otherRegisterMap : RegisterMap T) :
    Except Failure (RegisterMap T) :=
  otherRegisterMap.toList.foldlM
    (fun translated p =>
      match analysis.translateRegisterIndex otherBb bb p.1 with
      | some translatedRegister =>
          safeInsert translated translatedRegister (analysis.translateCb p.2 otherBb bb)
      | none => .ok translated) ∅

/-- `JoinRegToT`. -/
def joinRegToT (a b : RegisterMap T) : RegisterMap T :=
  a.filterMap fun register value => b[register]?.map (analysis.joinCb value)

/-- One block of the loop over `otherBbs`; there is no map before the first one that has
    been processed. -/
def joinOther (s : DataFlowState T) (bb : Nat) (registerMap : Option (RegisterMap T))
    (otherBb : Nat) : Except Failure (Option (RegisterMap T)) :=
  if s.processedBasicBlocks otherBb then do
    let translated ← analysis.translateRegisterMap otherBb bb (s.basicBlockMaps otherBb)
    match registerMap with
    | none => return some translated
    | some registerMap => return some (analysis.joinRegToT registerMap translated)
  else return registerMap

/-- The loop over `otherBbs`. -/
def joinOthers (s : DataFlowState T) (bb : Nat) : Except Failure (Option (RegisterMap T)) :=
  (analysis.otherBbs bb).foldlM (analysis.joinOther s bb) none

/-- The operation callbacks of a block, one after the other. -/
def runCallbacks (bb : Nat) (registerMap : RegisterMap T) : RegisterMap T :=
  (analysis.directedOperations bb).foldl (fun map op => analysis.opCallback op map) registerMap

/-- The map of a block, from those of the others. -/
def computeMap (s : DataFlowState T) (bb : Nat) : Except Failure (RegisterMap T) := do
  let registerMap := analysis.runCallbacks bb ((← analysis.joinOthers s bb).getD ∅)
  assert (registerMap.keys.all fun register => analysis.table.isLocal register)
  return registerMap

/-- One round of the loop over the work list. -/
def processBlock (s : DataFlowState T) (bb : Nat) :
    Except Failure (DataFlowState T × List Nat) := do
  let registerMap ← analysis.computeMap s bb
  -- `InsertAndCheckForChange`: a block without an entry has the empty map
  let changed := s.basicBlockMaps bb ≠ registerMap
  return (⟨Function.update s.basicBlockMaps bb registerMap,
    Function.update s.processedBasicBlocks bb true⟩, if changed then analysis.dependents bb else [])

/-- The block to start with. -/
def startBlock : Nat :=
  match analysis.direction with
  | .forward => analysis.front
  | .backward => analysis.back

/-- The loop over the work list. -/
def run (fuel : Nat) : Option (Except Failure (DataFlowState T)) :=
  WorkList.run analysis.processBlock fuel
    (if analysis.function.basicBlocks.isEmpty then [] else [analysis.startBlock])
    ⟨fun _ => ∅, fun _ => false⟩

end DataFlowAnalysis

end Kanagawa.Optimize
