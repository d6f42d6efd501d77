/-
  Kanagawa.Optimize.FixupLutOps

  Bringing lookup tables into a canonical form (`optimize_lut.cpp`, `FixupLutOps`).

  Six rewrites are repeated until none of them changes the operation: known
  sources are folded into the tables, columns without effect and operands without
  use are dropped, operands for the same register and columns for the same bit are
  merged, and a table without any source becomes a move of a literal.

  Each rewrite returns the new operation and whether it changed.  The maps of the
  source, from registers, operands and bits to their new places, are lists in the
  order in which the places are given out.
-/
import Kanagawa.Optimize.LutFixup

namespace Kanagawa.Optimize

open IR Lib.Bits Lib.Except

/-! ## Entries, one by one -/

/-- Visits the entries of a lookup table, and tells whether any of them changed. -/
def forEachEntry (op : Operation) (f : LutEntry → Except Failure (LutEntry × Bool)) :
    Except Failure (Operation × Bool) :=
  match op.opcode with
  | .lut entries => do
      assert (op.dst.length == 1)
      let results ← entries.mapM f
      return ({ op with opcode := .lut (results.map Prod.fst) }, results.any Prod.snd)
  | _ => .error .assertion

/-- The result of `FixupLutOp`: some entry looks at a literal. -/
def readsLiteral (op : Operation) : Bool :=
  match op.opcode with
  | .lut entries => entries.any fun entry =>
      entry.sources.any fun source => (knownBit op source).isSome
  | _ => false

/-- `RemoveSourceFromLut`. -/
def removeSourceFromLut (inputLutEntry : LutEntry) (srcIndex : Nat) (knownValue : Bool) :
    Except Failure LutEntry := do
  assert (srcIndex < inputLutEntry.sources.length)
  let oldTableSize := 2 ^ inputLutEntry.sources.length
  let rowsCopied := (List.range oldTableSize).filter fun oldOutputIndex =>
    oldOutputIndex.testBit srcIndex == knownValue
  let table := rowsCopied.zipIdx.foldl
    (fun (table : Nat) (p : Nat × Nat) =>
      if inputLutEntry.table.testBit p.1 then table ||| 2 ^ p.2 else table) 0
  assert (rowsCopied.length == oldTableSize / 2)
  return ⟨inputLutEntry.sources.eraseIdx srcIndex, table⟩

/-- The loop over the candidates of `RemoveUnusedLutSourceRegisters`; it ends at the first
    that is removed. -/
def removeCandidate (lutEntry : LutEntry) : List Nat → Except Failure (LutEntry × Bool)
  | [] => .ok (lutEntry, false)
  | candidateSrcIndex :: candidates => do
      let table0 ← removeSourceFromLut lutEntry candidateSrcIndex false
      let table1 ← removeSourceFromLut lutEntry candidateSrcIndex true
      if table0.table == table1.table then return (table0, true)
      else removeCandidate lutEntry candidates

/-- `RemoveUnusedLutSourceRegisters`. -/
def removeUnusedLutSourceRegisters (op : Operation) : Except Failure (Operation × Bool) :=
  forEachEntry op fun lutEntry => removeCandidate lutEntry (List.range lutEntry.sources.length)

/-- The loop body that fills `opIndexAndBitToSourceIndex`. -/
def addColumn (columns : List ((Nat × Nat) × List Nat)) (p : (Nat × Nat) × Nat) :
    List ((Nat × Nat) × List Nat) :=
  if p.1 ∈ columns.map Prod.fst then
    columns.map fun column => if column.1 = p.1 then (column.1, column.2 ++ [p.2]) else column
  else columns ++ [(p.1, [p.2])]

/-- `opIndexAndBitToSourceIndex`: the sources without repetition, in the order of the new
    columns, each with its old columns. -/
def oldColumns (sources : List (Nat × Nat)) : List ((Nat × Nat) × List Nat) :=
  sources.zipIdx.foldl addColumn []

/-- `originalTableIndex` for a row of the new table. -/
def originalTableIndex (columns : List ((Nat × Nat) × List Nat)) (newTableRow : Nat) : Nat :=
  columns.zipIdx.foldl
    (fun (index : Nat) (p : ((Nat × Nat) × List Nat) × Nat) =>
      if newTableRow.testBit p.2 then
        p.1.2.foldl (fun (index : Nat) (originalColumnIndex : Nat) =>
          index ||| 2 ^ originalColumnIndex) index
      else index) 0

/-- The loop body of `RemoveDuplicateLutColumns`. -/
def removeDuplicateColumns (lutEntry : LutEntry) : Except Failure (LutEntry × Bool) := do
  let columns := oldColumns lutEntry.sources
  assert (columns.length ≤ lutEntry.sources.length)
  if columns.length < lutEntry.sources.length then
    let table := (List.range (2 ^ columns.length)).foldl
      (fun (table : Nat) (newTableRow : Nat) =>
        if lutEntry.table.testBit (originalTableIndex columns newTableRow) then
          table ||| 2 ^ newTableRow
        else table) 0
    return (⟨columns.map Prod.fst, table⟩, true)
  else return (lutEntry, false)

/-- `RemoveDuplicateLutColumns`. -/
def removeDuplicateLutColumns (op : Operation) : Except Failure (Operation × Bool) :=
  forEachEntry op removeDuplicateColumns

/-! ## Operands -/

/-- The sources of an entry after their operands have moved; `SafeLookup` of the places. -/
def renumberEntry (operandMap : Nat → Option Nat) (lutEntry : LutEntry) :
    Except Failure LutEntry := do
  let sources ← lutEntry.sources.mapM fun source =>
    match operandMap source.1 with
    | some index => .ok (index, source.2)
    | none => .error (.runtimeError "Failed to lookup value in a map")
  return ⟨sources, lutEntry.table⟩

/-- `usedSourceIndices`, in increasing order. -/
def usedSourceIndices (entries : List LutEntry) : List Nat :=
  (entries.flatMap fun entry => entry.sources.map Prod.fst).dedup.insertionSort (· ≤ ·)

/-- `op._src[index]`. -/
def sourceOperandAt (op : Operation) (index : Nat) : Except Failure SourceOperand :=
  match op.src[index]? with
  | some srcOp => .ok srcOp
  | none => .error .assertion

/-- `RemoveUnusedLutSourceOperands`. -/
def removeUnusedLutSourceOperands (op : Operation) : Except Failure (Operation × Bool) :=
  match op.opcode with
  | .lut entries => do
      assert (op.dst.length == 1)
      let used := usedSourceIndices entries
      assert (used.length ≤ op.src.length)
      if used.length < op.src.length then
        let newSourceOperands ← used.mapM (sourceOperandAt op)
        let operandMap := fun index => if index ∈ used then some (used.idxOf index) else none
        let entries ← entries.mapM (renumberEntry operandMap)
        return ({ op with opcode := .lut entries, src := newSourceOperands }, true)
      else return (op, false)
  | _ => .error .assertion

/-- The maps of `RemoveDuplicateLutSourceRegisters`: the registers and their operands without
    repetition, the new place of each old operand, and whether a register came up again. -/
structure UniqueOperands where
  registers : List Nat := []
  newSrcOperands : List SourceOperand := []
  operandIndexMap : List Nat := []
  duplicateFound : Bool := false

/-- The loop body of `RemoveDuplicateLutSourceRegisters`. -/
def UniqueOperands.visit (u : UniqueOperands) (srcOp : SourceOperand) :
    Except Failure UniqueOperands :=
  match srcOp.register? with
  | some registerIndex =>
      if registerIndex ∈ u.registers then
        .ok { u with
          operandIndexMap := u.operandIndexMap ++ [u.registers.idxOf registerIndex]
          duplicateFound := true }
      else
        .ok { u with
          registers := u.registers ++ [registerIndex]
          newSrcOperands := u.newSrcOperands ++ [srcOp]
          operandIndexMap := u.operandIndexMap ++ [u.registers.length] }
  -- The assertion of `GetAccessedRegister`
  | none => .error .assertion

/-- `RemoveDuplicateLutSourceRegisters`. -/
def removeDuplicateLutSourceRegisters (op : Operation) : Except Failure (Operation × Bool) :=
  match op.opcode with
  | .lut entries => do
      assert (op.dst.length == 1)
      assert (op.signExtendSourceMask == 0)
      let u ← op.src.foldlM UniqueOperands.visit {}
      if u.duplicateFound then
        let entries ← entries.mapM (renumberEntry fun index => u.operandIndexMap[index]?)
        return ({ op with opcode := .lut entries, src := u.newSrcOperands }, true)
      else return (op, false)
  | _ => .error .assertion

/-! ## The loop -/

/-- `GetMpWidth`. -/
def getMpWidth (input : Nat) : Nat := if input = 0 then 1 else input.log2 + 1

/-- The loop body of `DetectConstantLut`: whether all bits are known, and their value. -/
def addKnownBit (known : Bool × Nat) (p : LutEntry × Nat) : Except Failure (Bool × Nat) :=
  if p.1.sources.length = 0 then
    if p.1.table ≠ 0 then do
      assert (p.1.table == 1)
      return (known.1, known.2 ||| 2 ^ p.2)
    else .ok known
  else .ok (false, known.2)

/-- `DetectConstantLut`. -/
def detectConstantLut (op : Operation) : Except Failure (Operation × Bool) :=
  match op.opcode, op.dst with
  | .lut entries, [dst] => do
      let (allDestinationBitsKnown, knownValue) ← entries.zipIdx.foldlM addKnownBit (true, 0)
      if allDestinationBitsKnown then
        return ({ opcode := .mov, tag := op.tag, dst := [dst]
                  src := [.literal ⟨knownValue, getMpWidth knownValue⟩] }, true)
      else return (op, false)
  | _, _ => .error .assertion

/-- The rewrites of `FixupLutOps` before `RemoveDuplicateLutSourceRegisters`. -/
def fixupLutSources (op : Operation) : Except Failure (Operation × Bool) := do
  let fixed := readsLiteral op
  let op ← fixupLutOp op
  let (op, removedColumns) ← removeUnusedLutSourceRegisters op
  let (op, removedOperands) ← removeUnusedLutSourceOperands op
  return (op, fixed || removedColumns || removedOperands)

/-- The loop body of `FixupLutOps`, with `makingProgress`. -/
def fixupLutRound (op : Operation) : Except Failure (Operation × Bool) := do
  let (op, removed) ← fixupLutSources op
  let (op, mergedOperands) ← removeDuplicateLutSourceRegisters op
  let (op, mergedColumns) ← removeDuplicateLutColumns op
  let (op, constant) ← detectConstantLut op
  return (op, removed || mergedOperands || mergedColumns || constant)

/-- `Opcode::Lut == op._opcode`. -/
def isLut (op : Operation) : Bool :=
  match op.opcode with
  | .lut _ => true
  | _ => false

/-- The loop of `FixupLutOps` for one operation, and whether it changed it; `none` when fuel
    runs out. -/
def fixupLutLoop : Nat → Operation → Option (Except Failure (Operation × Bool))
  | 0, _ => none
  | fuel + 1, op =>
      match fixupLutRound op with
      | .error e => some (.error e)
      | .ok (op', makingProgress) =>
          if !makingProgress || !isLut op' then some (.ok (op', makingProgress))
          else (fixupLutLoop fuel op').map fun result => result.map fun (op'', _) => (op'', true)

/-- `FixupLutOps` for the operations of a block. -/
def fixupLutOps (fuel : Nat) : List Operation → Option (Except Failure (List Operation × Bool))
  | [] => some (.ok ([], false))
  | op :: ops => do
      let first ← if isLut op then fixupLutLoop fuel op else some (.ok (op, false))
      match first with
      | .error e => some (.error e)
      | .ok (op', changed) =>
          let rest ← fixupLutOps fuel ops
          return rest.map fun (ops', didChangeIR) => (op' :: ops', changed || didChangeIR)

end Kanagawa.Optimize
