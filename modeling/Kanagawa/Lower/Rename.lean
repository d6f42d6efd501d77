/-
  Kanagawa.Lower.Rename

  Register renaming (`lower.cpp`, `Rename`).

  Every write of a local register gets a register of its own, later reads follow
  the renaming table, and each `Enqueue` keeps a snapshot of the table and of its
  inverse.
-/
import Kanagawa.IR.Semantics
import Kanagawa.Lib.Except

namespace Kanagawa.Lower

open IR

/-! ## The pass -/

/-- What the walk over a block carries along: the program's register table and the
    map from original to renamed register. -/
structure RenameState where
  registerTable : RegisterTable
  renameTable : RegisterIndexMap

/-- The tables an `Enqueue` keeps; other operations have none. -/
def recordTables (renameTable : RegisterIndexMap) (op : Operation) : Except Failure Operation := do
  if op.isEnqueue then
    assert op.reverseRenamingTable.isEmpty
    let reverseRenamingTable ← renameTable.toList.foldlM
      (fun reverse p => safeInsert reverse p.2 p.1) op.reverseRenamingTable
    return { op with
      renamingTable := renameTable
      reverseRenamingTable := reverseRenamingTable }
  else
    return op

/-- The update of a source operand. -/
def renameSource (renameTable : RegisterIndexMap) : SourceOperand → SourceOperand
  | .register r => .register (renameTable.getD r r)
  | srcOp => srcOp

/-- The update of a destination operand. -/
def renameDestination (s : RenameState) :
    DestinationOperand → Except Failure (DestinationOperand × RenameState)
  | .register r =>
      let regDesc := s.registerTable.desc r
      if regDesc.type.canBeRenamed then
        let (newRegisterIndex, registerTable) := allocateRegister s.registerTable regDesc
        .ok (.register newRegisterIndex,
          ⟨registerTable, s.renameTable.insert r newRegisterIndex⟩)
      else do
        -- Renaming is decided by the register type alone
        assert (!s.renameTable.contains r)
        return (.register r, s)
  | .fifo f => .ok (.fifo f, s)

/-- The loop over the destination operands. -/
def renameDestinations (s : RenameState) :
    List DestinationOperand → Except Failure (List DestinationOperand × RenameState)
  | [] => .ok ([], s)
  | dst :: dsts => do
      let (dst', s) ← renameDestination s dst
      let (dsts', s) ← renameDestinations s dsts
      return (dst' :: dsts', s)

/-- The callback of `Rename`. -/
def renameOperation (s : RenameState) (op : Operation) :
    Except Failure (Operation × RenameState) := do
  let op ← recordTables s.renameTable op
  let src := op.src.map (renameSource s.renameTable)
  let (dst, s) ← renameDestinations s op.dst
  return ({ op with src := src, dst := dst }, s)

def renameOperations (s : RenameState) :
    List Operation → Except Failure (List Operation × RenameState)
  | [] => .ok ([], s)
  | op :: ops => do
      let (op', s) ← renameOperation s op
      let (ops', s) ← renameOperations s ops
      return (op' :: ops', s)

def renameStages (s : RenameState) : List Stage → Except Failure (List Stage × RenameState)
  | [] => .ok ([], s)
  | stage :: stages => do
      let (operations, s) ← renameOperations s stage.operations
      let (stages', s) ← renameStages s stages
      return ({ stage with operations := operations } :: stages', s)

/-- `Rename`. -/
def rename (registerTable : RegisterTable) (basicBlock : BasicBlock) :
    Except Failure (BasicBlock × RegisterTable) := do
  let (startConditionOperations, s) ←
    renameOperations ⟨registerTable, ∅⟩ basicBlock.startConditionOperations
  let (operations, s) ← renameOperations s basicBlock.operations
  let (stages, s) ← renameStages s basicBlock.stages
  return (⟨startConditionOperations, operations, stages⟩, s.registerTable)

/-- `Rename` on the blocks of a program, one after the other. -/
def renameBlocks (registerTable : RegisterTable) :
    List BasicBlock → Except Failure (List BasicBlock × RegisterTable)
  | [] => .ok ([], registerTable)
  | basicBlock :: basicBlocks => do
      let (basicBlock', registerTable) ← rename registerTable basicBlock
      let (basicBlocks', registerTable) ← renameBlocks registerTable basicBlocks
      return (basicBlock' :: basicBlocks', registerTable)

end Kanagawa.Lower
