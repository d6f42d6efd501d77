/-
  Kanagawa.Optimize.CombineLuts

  Merging a lookup table with the one that produces one of its operands
  (`optimize_lut.cpp`, `CombineLuts`).

  The columns of the new table are the bits of registers that the two tables look
  at, except those of the operand in between.  They are found entry by entry; the
  registers get their places among the new operands in the order in which they
  come up.  The maps of the source, from registers to places and from bits to
  columns, are lists in the order of the places.
-/
import Kanagawa.Optimize.CommonSubexpression
import Kanagawa.Optimize.FixupLutOps
import Kanagawa.Optimize.LowerToLut

namespace Kanagawa.Optimize

open IR

/-! ## Columns of the new table -/

/-- The register of an operand that is asserted to be one. -/
def registerAt (op : Operation) (index : Nat) : Except Failure Nat :=
  match op.src[index]? with
  | some (.register registerIndex) => .ok registerIndex
  | _ => .error .assertion

/-- A register gets the next place in `regIndexToSrcOpIndexMap`, unless it has one. -/
def addRegister (registers : List Nat) (srcReg : Nat) : List Nat :=
  if srcReg ∈ registers then registers else registers ++ [srcReg]

/-- `regIndexToSrcOpIndexMap` for the operands of `op` that stay. -/
def initialRegisters (op : Operation) (selectedSrcOpIdx : Nat) : List Nat :=
  op.src.zipIdx.foldl
    (fun (registers : List Nat) (p : SourceOperand × Nat) =>
      match p.1.register? with
      | some srcReg => if p.2 = selectedSrcOpIdx then registers else addRegister registers srcReg
      | none => registers) []

local instance lawfulBEqPair : LawfulBEq (Nat × Nat) := inferInstance

/-- A source is added to `newSources`, unless it is in `sourceSet`. -/
def addSource (newSources : List (Nat × Nat)) (source : Nat × Nat) : List (Nat × Nat) :=
  if source ∈ newSources then newSources else newSources ++ [source]

/-- The registers and the columns so far. -/
structure NewSources where
  registers : List Nat
  newSources : List (Nat × Nat)

/-- A bit of a register that has a place. -/
def NewSources.addBit (acc : NewSources) (srcReg bit : Nat) : NewSources :=
  { acc with newSources := addSource acc.newSources (acc.registers.idxOf srcReg, bit) }

/-- A column of an entry of `prevOp`. -/
def visitPrevSource (prevOp : Operation) (acc : NewSources) (source : Nat × Nat) :
    Except Failure NewSources := do
  let srcReg ← registerAt prevOp source.1
  return NewSources.addBit { acc with registers := addRegister acc.registers srcReg } srcReg source.2

/-- `prevOp._flags._lut._lutEntries[bitInPrevOp]`. -/
def prevEntryAt (prevEntries : List LutEntry) (bitInPrevOp : Nat) : Except Failure LutEntry :=
  match prevEntries[bitInPrevOp]? with
  | some prevEntry => .ok prevEntry
  | none => .error .assertion

section

variable (op prevOp : Operation) (prevEntries : List LutEntry) (selectedSrcOpIdx : Nat)

/-- A column of an entry of `op`: one column, or those of an entry of `prevOp`. -/
def visitSource (acc : NewSources) (source : Nat × Nat) : Except Failure NewSources :=
  if source.1 = selectedSrcOpIdx then do
    let prevEntry ← prevEntryAt prevEntries source.2
    prevEntry.sources.foldlM (visitPrevSource prevOp) acc
  else do
    let srcReg ← registerAt op source.1
    -- `LookupAndAssert`
    assert (srcReg ∈ acc.registers)
    return acc.addBit srcReg source.2

/-! ## Its rows -/

/-- The bit that a slot of the new table has in the column for a bit of a register. -/
def bitInSlot (sourceToOutputIndexMap : List (Nat × Nat)) (newTableSlot : Nat)
    (srcRegAndBitIndex : Nat × Nat) : Except Failure Bool := do
  assert (srcRegAndBitIndex ∈ sourceToOutputIndexMap)
  return newTableSlot.testBit (sourceToOutputIndexMap.idxOf srcRegAndBitIndex)

/-- The value that `prevOp` gives a bit of its destination in a slot of the new table. -/
def prevValueInSlot (sourceToOutputIndexMap : List (Nat × Nat)) (newTableSlot : Nat)
    (prevEntry : LutEntry) : Except Failure Nat :=
  if prevEntry.sources.length > 0 then do
    let bits ← prevEntry.sources.mapM fun source => do
      bitInSlot sourceToOutputIndexMap newTableSlot (← registerAt prevOp source.1, source.2)
    return (prevEntry.table.testBit (indexOfBits bits)).toNat
  else return prevEntry.table

/-- `val` for a column of the original table. -/
def valueInSlot (sourceToOutputIndexMap : List (Nat × Nat)) (newTableSlot : Nat)
    (source : Nat × Nat) : Except Failure Nat :=
  if source.1 = selectedSrcOpIdx then do
    prevValueInSlot prevOp sourceToOutputIndexMap newTableSlot (← prevEntryAt prevEntries source.2)
  else do
    let bit ← bitInSlot sourceToOutputIndexMap newTableSlot (← registerAt op source.1, source.2)
    return bit.toNat

/-- `slotInOriginalTable`. -/
def slotInOriginalTable (sourceToOutputIndexMap : List (Nat × Nat)) (originalEntry : LutEntry)
    (newTableSlot : Nat) : Except Failure Nat := do
  let values ← originalEntry.sources.mapM
    (valueInSlot op prevOp prevEntries selectedSrcOpIdx sourceToOutputIndexMap newTableSlot)
  return values.zipIdx.foldl (fun (slot : Nat) (p : Nat × Nat) => slot ||| p.1 <<< p.2) 0

/-- The entry for a bit of the destination, and the registers after it; nothing if it has too
    many columns. -/
def combineEntry (registers : List Nat) (originalEntry : LutEntry) :
    Except Failure (Option (List Nat × LutEntry)) := do
  let acc ← originalEntry.sources.foldlM (visitSource op prevOp prevEntries selectedSrcOpIdx)
    ⟨registers, []⟩
  if acc.newSources.length > maxLutSources then return none
  else
    let sourceToOutputIndexMap ← acc.newSources.mapM fun source =>
      match acc.registers[source.1]? with
      | some srcReg => .ok (srcReg, source.2)
      | none => .error .assertion
    let slots ← (List.range (2 ^ acc.newSources.length)).mapM
      (slotInOriginalTable op prevOp prevEntries selectedSrcOpIdx sourceToOutputIndexMap
        originalEntry)
    return some (acc.registers, ⟨acc.newSources, buildTable (2 ^ acc.newSources.length)
      fun newTableSlot => originalEntry.table.testBit (slots.getD newTableSlot 0)⟩)

/-- The loop over the bits of the destination. -/
def combineEntries : List Nat → List LutEntry → Except Failure (Option (List Nat × List LutEntry))
  | registers, [] => .ok (some (registers, []))
  | registers, originalEntry :: rest => do
      match ← combineEntry op prevOp prevEntries selectedSrcOpIdx registers originalEntry with
      | none => return none
      | some (registers, newEntry) =>
          return (← combineEntries registers rest).map fun (registers, newEntries) =>
            (registers, newEntry :: newEntries)

end

/-! ## The pass -/

/-- The first loop of `OptimizeLutOpt`. -/
def removeAllUnusedSources : Nat → Operation → Option (Except Failure Operation)
  | 0, _ => none
  | fuel + 1, op =>
      match removeUnusedLutSourceRegisters op with
      | .error e => some (.error e)
      | .ok (op', true) => removeAllUnusedSources fuel op'
      | .ok (op', false) => some (.ok op')

/-- The loop body of `OptimizeLutOpt`: a table that is all zeros or all ones. -/
def optimizeConstantEntry (lutEntry : LutEntry) : Except Failure LutEntry :=
  if lutEntry.sources.length > 0 then do
    let tableSize := 2 ^ lutEntry.sources.length
    assert (tableSize ≤ 64)
    let maskedTable := lutEntry.table % 2 ^ tableSize
    if maskedTable = 2 ^ tableSize - 1 ∨ maskedTable = 0 then
      return ⟨[], if maskedTable = 0 then 0 else 1⟩
    else return lutEntry
  else .ok lutEntry

/-- The entries that `OptimizeLutOpt` leaves, and the operands if any entry needs them. -/
def optimizeEntries (op : Operation) (entries : List LutEntry) : Except Failure Operation := do
  let entries ← entries.mapM optimizeConstantEntry
  let needsSrcOp := entries.any fun lutEntry => lutEntry.sources.length ≠ 0
  return { op with opcode := .lut entries, src := if needsSrcOp then op.src else [] }

/-- `OptimizeLutOpt`; `none` when fuel runs out. -/
def optimizeLutOpt (fuel : Nat) (op : Operation) : Option (Except Failure Operation) :=
  (removeAllUnusedSources fuel op).map fun result => do
    let op ← result
    match op.opcode with
    | .lut entries => optimizeEntries op entries
    | _ => .error .assertion

/-- The last lines of `CombineLuts`: whether the new operation takes the place of the old one. -/
def acceptLut (maxSources : Nat) (opInOut newOp : Operation) : Bool × Operation :=
  match newOp.opcode with
  | .lut entries =>
      if entries.any fun lutEntry => lutEntry.sources.length > maxSources then (false, opInOut)
      else (true, newOp)
  | _ => (false, opInOut)

/-- `CombineLuts` up to `OptimizeLutOpt`: the new operation, if there is one. -/
def mergeLuts (table : RegisterTable) (opInOut prevOpIn : Operation) (selectedSrcOpIdx : Nat) :
    Except Failure (Option Operation) := do
  assert (operationUsesOnlyLocalSrcReg table prevOpIn)
  let (converted, op) ← lowerToLut table opInOut
  if !converted then return none
  let (prevConverted, prevOp) ← lowerToLut table prevOpIn
  if !prevConverted then return none
  match op.opcode, prevOp.opcode, op.dst with
  | .lut entries, .lut prevEntries, dst :: _ => do
      assert (dst.width table = entries.length)
      match ← combineEntries op prevOp prevEntries selectedSrcOpIdx
          (initialRegisters op selectedSrcOpIdx) entries with
      | none => return none
      | some (registers, newEntries) =>
          return some { opcode := .lut newEntries, src := registers.map .register, dst := [dst]
                        tag := opInOut.tag }
  | _, _, _ => .error .assertion

/-- `CombineLuts`, with the new `opInOut`; `none` when fuel runs out. -/
def combineLuts (fuel : Nat) (table : RegisterTable) (opInOut prevOpIn : Operation)
    (selectedSrcOpIdx maxSources : Nat) : Option (Except Failure (Bool × Operation)) :=
  match mergeLuts table opInOut prevOpIn selectedSrcOpIdx with
  | .error e => some (.error e)
  | .ok none => some (.ok (false, opInOut))
  | .ok (some newOp) =>
      (optimizeLutOpt fuel newOp).map fun result => result.map (acceptLut maxSources opInOut)

end Kanagawa.Optimize
