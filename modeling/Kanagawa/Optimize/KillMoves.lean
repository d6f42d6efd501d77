/-
  Kanagawa.Optimize.KillMoves

  Copy propagation between and inside basic blocks (`optimize.cpp`, `KillMoves` and
  `RenameEqualValues`).

  Each block has a map from registers to operands of equal value.  It starts with
  the block's own moves; a work list adds the equalities on which all `Enqueue`
  operations that lead to the block agree.  In the end every source operand that has
  an equal one is replaced, wherever it stands in the block.
-/
import Kanagawa.Lib.Except
import Kanagawa.Optimize.DataFlow

namespace Kanagawa.Optimize

open IR Lib

/-- `EqualValueMap`: the operand that a register is equal to. -/
abbrev EqualValueMap := RegisterMap SourceOperand

/-! ## `RenameEqualValues` -/

/-- The register of the operand is an index in the renaming table. -/
def isOverwritten (op : Operation) : SourceOperand → Bool
  | .register r => op.renamingTable.contains r
  | _ => false

/-- The operand under the name its register has in the successor. -/
def renameEqualOperand (op : Operation) : SourceOperand → SourceOperand
  | .register r => .register (op.mapRenamedToOriginalRegisterIndex r)
  | srcOp => srcOp

/-- The loop body of `RenameEqualValues`. -/
def renameEqualValue (op : Operation) (valuesForSuccessor : EqualValueMap)
    (p : Nat × SourceOperand) : EqualValueMap :=
  -- The source of the move was overwritten by this block
  if isOverwritten op p.2 then valuesForSuccessor
  -- The register itself was written, and renamed to something else
  else if op.renamingTable.contains p.1 then valuesForSuccessor
  else
    valuesForSuccessor.insert (op.mapRenamedToOriginalRegisterIndex p.1)
      (renameEqualOperand op p.2)

/-- `RenameEqualValues`. -/
def renameEqualValues (equalValues : EqualValueMap) (op : Operation) : EqualValueMap :=
  equalValues.toList.foldl (renameEqualValue op) ∅

/-! ## Initialization -/

/-- The record that a move of `_operations` leaves; `optimizing` is whether
    `_optimize > 0`. -/
def recordMove (table : RegisterTable) (optimizing : Bool) (equalValues : EqualValueMap)
    (op : Operation) : Except Failure EqualValueMap :=
  match op.opcode with
  | .mov =>
      match op.src, op.dst with
      | [.literal l], [.register dstReg] =>
          let destWidth := (table.desc dstReg).width
          -- Without optimization the debugger needs the move
          if !optimizing && (table.desc dstReg).isDirectSource then .ok equalValues
          else if op.signExtendSourceMask = 0 then
            .ok (equalValues.insert dstReg (.literal ⟨truncate l.value destWidth, destWidth⟩))
          else .ok equalValues
      | [.register srcReg], [.register dstReg] =>
          if (table.desc srcReg).type.allowedInKillMoves then
            if !optimizing && (table.desc dstReg).isDirectSource then .ok equalValues
            -- Size-changing moves do useful work
            else if (table.desc dstReg).width = (table.desc srcReg).width then
              .ok (equalValues.insert dstReg (.register srcReg))
            else .ok equalValues
          else .ok equalValues
      -- One source, a literal or a register, and one destination register are asserted
      | _, _ => .error .assertion
  | _ => .ok equalValues

/-- `equalValueMaps` and `inputValueMap`; both give the empty map for a new key. -/
structure KillMovesState where
  equalValueMaps : Nat → EqualValueMap
  inputValueMap : Nat → PredecessorMap SourceOperand

/-- The callback of the initialization, at operation `p.2` of block `b`. -/
def initializeSuccessor (f : Function) (b : Nat) (equalValues : EqualValueMap)
    (inputValueMap : Nat → PredecessorMap SourceOperand) (p : Operation × Nat) :
    Nat → PredecessorMap SourceOperand :=
  match f.successorOf p.1 with
  | some successor =>
      Function.update inputValueMap successor
        (setPredecessor (inputValueMap successor) (b, p.2) (renameEqualValues equalValues p.1))
  | none => inputValueMap

/-- The initialization of one block. -/
def initializeBlock (table : RegisterTable) (optimizing : Bool) (f : Function)
    (s : KillMovesState) (b : Nat) : Except Failure KillMovesState := do
  let equalValues ← (f.bodyOf b).foldlM (recordMove table optimizing) (s.equalValueMaps b)
  return ⟨Function.update s.equalValueMaps b equalValues,
    (f.operationsOf b).zipIdx.foldl (initializeSuccessor f b equalValues) s.inputValueMap⟩

/-- The loop over `function._basicBlocks` that fills both maps. -/
def initializeMaps (table : RegisterTable) (optimizing : Bool) (f : Function) :
    Except Failure KillMovesState :=
  (List.range f.basicBlocks.length).foldlM (initializeBlock table optimizing f)
    ⟨fun _ => ∅, fun _ => []⟩

/-! ## The work list -/

/-- The loop body of the intersection; the state is `equalValues` and `newEqualValues`. -/
def intersectEntry (predecessorMap : PredecessorMap SourceOperand)
    (s : EqualValueMap × EqualValueMap) (p : Nat × SourceOperand) :
    Except Failure (EqualValueMap × EqualValueMap) :=
  if shouldInsert predecessorMap p.1 p.2 then
    match s.1[p.1]? with
    | none => .ok (s.1.insert p.1 p.2, s.2.insert p.1 p.2)
    | some srcOp => do
        assert (srcOp = p.2)
        return s
  else .ok s

/-- The intersection of all predecessors, over the entries of the first one. -/
def intersectPredecessors (predecessorMap : PredecessorMap SourceOperand)
    (equalValues : EqualValueMap) : Except Failure (EqualValueMap × EqualValueMap) :=
  match predecessorMap with
  | [] => .ok (equalValues, ∅)
  | predecessor0 :: _ =>
      predecessor0.2.toList.foldlM (intersectEntry predecessorMap) (equalValues, ∅)

/-- The loop body that adds a value for a successor to those it had before. -/
def mergeEqualValue (previousValues : EqualValueMap) (p : Nat × SourceOperand) :
    Except Failure EqualValueMap :=
  match previousValues[p.1]? with
  | some srcOp => do
      assert (p.2 = srcOp)
      return previousValues
  | none => .ok (previousValues.insert p.1 p.2)

/-- The loop over the values for a successor. -/
def mergeEqualValues (previousValues valuesForSuccessor : EqualValueMap) :
    Except Failure EqualValueMap :=
  valuesForSuccessor.toList.foldlM mergeEqualValue previousValues

/-- The callback of the work-list loop, at operation `p.2` of block `b`: the input of the
    successor grows, and the successor is added to the work list. -/
def propagateToSuccessor (f : Function) (b : Nat) (equalValues : EqualValueMap)
    (s : (Nat → PredecessorMap SourceOperand) × List Nat) (p : Operation × Nat) :
    Except Failure ((Nat → PredecessorMap SourceOperand) × List Nat) :=
  match f.successorOf p.1 with
  | some successor =>
      -- Both `find` calls are asserted to succeed
      match findPredecessor (s.1 successor) (b, p.2) with
      | some previousValues => do
          let merged ← mergeEqualValues previousValues (renameEqualValues equalValues p.1)
          return (Function.update s.1 successor
            (setPredecessor (s.1 successor) (b, p.2) merged), s.2 ++ [successor])
      | none => .error .assertion
  | none => .ok s

/-- One round of the work-list loop, with the blocks it adds. -/
def processBlock (f : Function) (s : KillMovesState) (b : Nat) :
    Except Failure (KillMovesState × List Nat) := do
  let (equalValues, newEqualValues) ←
    intersectPredecessors (s.inputValueMap b) (s.equalValueMaps b)
  let equalValueMaps := Function.update s.equalValueMaps b equalValues
  if newEqualValues.isEmpty then
    return (⟨equalValueMaps, s.inputValueMap⟩, [])
  else
    let (inputValueMap, added) ← (f.operationsOf b).zipIdx.foldlM
      (propagateToSuccessor f b equalValues) (s.inputValueMap, [])
    return (⟨equalValueMaps, inputValueMap⟩, added)

/-! ## The rewrite -/

/-- The replacement of one source operand. -/
def replaceSource (table : RegisterTable) (equalValues : EqualValueMap) :
    SourceOperand → SourceOperand
  | .register r =>
      match equalValues[r]? with
      -- The width of the source is kept, for sign extension
      | some (.literal l) => .literal ⟨l.value, (table.desc r).width⟩
      | some equalValue => equalValue
      | none => .register r
  | srcOp => srcOp

/-- The replacement of the source operands of an operation. -/
def replaceSources (table : RegisterTable) (equalValues : EqualValueMap) (op : Operation) :
    Operation :=
  if op.opcode.preserveInputReg then op
  else { op with src := op.src.map (replaceSource table equalValues) }

/-- The replacement of the source operands of a block. -/
def replaceInBlock (table : RegisterTable) (equalValues : EqualValueMap)
    (basicBlock : BasicBlock) : BasicBlock :=
  { startConditionOperations :=
      basicBlock.startConditionOperations.map (replaceSources table equalValues)
    operations := basicBlock.operations.map (replaceSources table equalValues)
    stages := basicBlock.stages.map fun stage =>
      { stage with operations := stage.operations.map (replaceSources table equalValues) } }

/-- The last loop of `KillMoves`. -/
def applyEqualValues (table : RegisterTable) (equalValueMaps : Nat → EqualValueMap)
    (f : Function) : Function :=
  { f with
    basicBlocks := f.basicBlocks.mapIdx fun b basicBlock =>
      replaceInBlock table (equalValueMaps b) basicBlock }

/-- `didChangeIR`: some source operand was replaced by a different one. -/
def didChangeIR (table : RegisterTable) (equalValueMaps : Nat → EqualValueMap) (f : Function) :
    Bool :=
  (List.range f.basicBlocks.length).any fun b => (f.operationsOf b).any fun op =>
    !op.opcode.preserveInputReg &&
      op.src.any fun srcOp => replaceSource table (equalValueMaps b) srcOp ≠ srcOp

/-- `KillMoves`; `none` when the fuel does not suffice for the work list. -/
def killMoves (table : RegisterTable) (optimizing : Bool) (fuel : Nat) (f : Function) :
    Option (Except Failure (Function × Bool)) :=
  match initializeMaps table optimizing f with
  | .error e => some (.error e)
  | .ok s =>
      match WorkList.run (processBlock f) fuel (List.range f.basicBlocks.length) s with
      | some (.ok s) => some (.ok (applyEqualValues table s.equalValueMaps f,
          didChangeIR table s.equalValueMaps f))
      | some (.error e) => some (.error e)
      | none => none

end Kanagawa.Optimize
