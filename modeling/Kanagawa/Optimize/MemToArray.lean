/-
  Kanagawa.Optimize.MemToArray

  The pass that turns small memories into registers (`MemToArray`,
  `optimize.cpp`).

  A read-only memory becomes one constant global register for each element, and a
  load from it becomes a `Select` over them for each destination.  Other memories
  are only marked for the logic RAM module.  The two cost functions are floating
  point estimates; the model takes their comparison as part of the configuration.
  Each operation carries the part of its flags that the pass reads.
-/
import Kanagawa.IR.Emission
import Kanagawa.Generate.ReorderHelper

namespace Kanagawa.Optimize.MemToArray

open Kanagawa.IR

/-! ## Memories -/

/-- `MemoryDesc`, with the fields that are read. -/
structure MemoryDesc where
  elementWidth : Nat
  elementCount : Nat
  writePortCount : Nat
  replicate : Bool
  quadPort : Bool
  useLogicRam : Bool
  initialValues : List Nat
  deriving Repr, DecidableEq, Inhabited

/-- `HasReadArbitration`. -/
def MemoryDesc.hasReadArbitration (memory : MemoryDesc) : Bool :=
  !memory.replicate && !memory.quadPort

/-- `IsROM`. -/
def MemoryDesc.isRom (memory : MemoryDesc) : Bool :=
  memory.writePortCount == 0 && !memory.initialValues.isEmpty

/-- `Log2RoundUp`. -/
def log2RoundUp (input : Nat) : Except Failure Nat :=
  match Generate.log2RoundUp input with
  | some result => .ok result
  | none => .error (.runtimeError "No bits were set in the operand.")

/-- `GetMemoryAddressWidth`: memories of depth one have an address of one bit. -/
def MemoryDesc.addressWidth (memory : MemoryDesc) : Except Failure Nat := do
  let result ← log2RoundUp memory.elementCount
  return if result = 0 then 1 else result

/-- The flags of a `LoadMemory` that the pass reads or writes. -/
structure LoadMemoryFlags where
  sourceOffsets : List Nat := []
  readLatency : Nat := 0
  bypass : Bool := false
  deriving Repr, DecidableEq, Inhabited

/-- An operation, with its flags if it is a `LoadMemory`. -/
structure MemoryOperation where
  op : Operation
  loadMemory : LoadMemoryFlags := {}

/-- A program: its registers, what it records of those that are memories, and the
    operations of the blocks of all its functions. -/
structure Program where
  registerTable : RegisterTable
  memories : Nat → MemoryDesc
  blocks : List (List MemoryOperation)

/-- `_forceMemToArray`, and whether the cost function prefers registers to a memory of an
    element width, an element count and numbers of read and write ports. -/
structure Config where
  forceMemToArray : Nat
  costAsArrayIsLess : Nat → Nat → Nat → Nat → Bool

/-! ## Which memories are converted -/

/-- `MemoryInfo`. -/
structure MemoryInfo where
  readPortCount : Nat := 0
  writePortCount : Nat := 0
  baseGlobalIndex : Nat := 0
  usesGlobalView : Bool := false
  convert : Bool := false
  deriving Repr, DecidableEq, Inhabited

abbrev MemoryMap := Std.ExtTreeMap Nat MemoryInfo

/-- The register of an optional operand, `GetAccessedRegister`. -/
def accessedRegister : Option (Option Nat) → Except Failure Nat
  | some (some registerIndex) => .ok registerIndex
  | _ => .error .assertion

/-- The memory a `LoadMemory` reads. -/
def loadedMemory (op : Operation) : Except Failure Nat :=
  accessedRegister (op.src[0]?.map SourceOperand.register?)

def isGlobalView (table : RegisterTable) : SourceOperand → Bool
  | .register r => (table.desc r).type == .globalView
  | _ => false

/-- The loop body that counts ports. -/
def countPorts (table : RegisterTable) (memories : MemoryMap) (op : Operation) :
    Except Failure MemoryMap :=
  match op.opcode with
  | .loadMemory => do
      let memoryIndex ← loadedMemory op
      assert ((table.desc memoryIndex).type == .memory)
      let memory := memories.getD memoryIndex {}
      let usesGlobalView := op.src.tail.any (isGlobalView table)
      return memories.insert memoryIndex { memory with
        readPortCount := memory.readPortCount + 1
        usesGlobalView := memory.usesGlobalView || usesGlobalView }
  | .storeMemory => do
      let memoryIndex ← accessedRegister (op.dst[0]?.map DestinationOperand.register?)
      assert ((table.desc memoryIndex).type == .memory)
      let memory := memories.getD memoryIndex {}
      return memories.insert memoryIndex { memory with
        writePortCount := memory.writePortCount + 1 }
  | _ => .ok memories

/-- The tests a memory has to pass. -/
def isEligible (config : Config) (memory : MemoryDesc) (info : MemoryInfo) : Bool :=
  -- Not replicated and quad port memories have other semantics
  if !memory.replicate || memory.quadPort then false
  -- Initial values of RAMs are lost at reset
  else if !memory.initialValues.isEmpty && info.writePortCount > 0 then false
  else if memory.useLogicRam then false
  else if info.writePortCount > 1 then false
  else if info.usesGlobalView then false
  else
    (config.forceMemToArray != 0 && memory.elementCount ≤ config.forceMemToArray) ||
      config.costAsArrayIsLess memory.elementWidth memory.elementCount info.readPortCount
        info.writePortCount

/-- Marks the memories to convert, in order of their registers, and reserves the
    registers of the elements of those that are read-only. -/
def markConversions (config : Config) (program : Program) :
    List (Nat × MemoryInfo) → Nat → List (Nat × MemoryInfo)
  | [], _ => []
  | (registerIndex, info) :: rest, numGlobalsAllocated =>
      let memory := program.memories registerIndex
      if !isEligible config memory info then
        (registerIndex, info) :: markConversions config program rest numGlobalsAllocated
      else if memory.isRom then
        (registerIndex, { info with
          convert := true
          baseGlobalIndex := program.registerTable.length + numGlobalsAllocated }) ::
        markConversions config program rest (numGlobalsAllocated + memory.elementCount)
      else
        (registerIndex, { info with convert := true }) ::
        markConversions config program rest numGlobalsAllocated

/-- `memoriesToConvert`. -/
def memoriesToConvert (config : Config) (program : Program) :
    Except Failure (List (Nat × MemoryInfo)) := do
  let memories ← (program.blocks.flatten.map MemoryOperation.op).foldlM
    (countPorts program.registerTable) ∅
  return markConversions config program memories.toList 0

/-! ## The registers of the elements -/

/-- The description of the register of an element. -/
def elementRegister (memory : MemoryDesc) (initialValue : Option Nat) : RegisterDescription :=
  { width := memory.elementWidth
    type := .global
    isDirectSource := false
    isConstant := initialValue.isSome
    initialValue }

/-- The initial value of the register of an element. -/
def elementInitialValue (memory : MemoryDesc) (info : MemoryInfo) (i : Nat) :
    Except Failure (Option Nat) :=
  if !memory.initialValues.isEmpty then do
    assert (info.writePortCount == 0)
    match memory.initialValues[i]? with
    | some value => .ok (some value)
    | none => .error (.runtimeError "vector subscript out of range")
  else .ok none

/-- The loop body that allocates the register of an element. -/
def allocateElement (memory : MemoryDesc) (info : MemoryInfo) (table : RegisterTable) (i : Nat) :
    Except Failure RegisterTable := do
  assert (table.length == info.baseGlobalIndex + i)
  let initialValue ← elementInitialValue memory info i
  return (allocateRegister table (elementRegister memory initialValue)).2

/-- The loop body for a memory that is converted. -/
def allocateMemory (state : RegisterTable × (Nat → MemoryDesc)) (m : Nat × MemoryInfo) :
    Except Failure (RegisterTable × (Nat → MemoryDesc)) :=
  let memory := state.2 m.1
  if !m.2.convert then .ok state
  else if !memory.isRom then
    .ok (state.1, Function.update state.2 m.1 { memory with useLogicRam := true })
  else do
    assert ((state.1.desc m.1).type == .memory)
    let table ← (List.range memory.elementCount).foldlM (allocateElement memory m.2) state.1
    return (table, state.2)

/-! ## The operations that replace a load -/

/-- Adds a choice to the multiplexer of a destination: the bits of an element, or zero
    beyond the last element. -/
def pushChoice (memory : MemoryDesc) (baseGlobalRegIndex offset width : Nat)
    (state : List SourceOperand × Emission) (i : Nat) : List SourceOperand × Emission :=
  if i < memory.elementCount then
    let (gatherDstReg, e) := state.2.emit
      { opcode := .gather [⟨offset, 0, width⟩], src := [.register (baseGlobalRegIndex + i)] } width
    (state.1 ++ [.register gatherDstReg], e)
  else (state.1 ++ [sizeLiteral 0], state.2)

/-- The operations for one destination of a load. -/
def convertDestination (memory : MemoryDesc) (baseGlobalRegIndex wideLoadIndex addressWidth : Nat)
    (e : Emission) (dst : DestinationOperand) (offset : Nat) : Emission :=
  let isSingleElement := memory.elementCount == 1
  let elementCountPow2 := if isSingleElement then 1 else 2 ^ addressWidth
  let (choices, e') := (List.range elementCountPow2).foldl
    (pushChoice memory baseGlobalRegIndex offset (dst.width e.table)) ([], e)
  if isSingleElement then e'.push { opcode := .mov, src := choices, dst := [dst] }
  else e'.push { opcode := .select, src := .register wideLoadIndex :: choices, dst := [dst] }

/-- The loop over the destinations; `at` throws when there is no offset. -/
def convertDestinations (memory : MemoryDesc)
    (baseGlobalRegIndex wideLoadIndex addressWidth : Nat) :
    List DestinationOperand → List Nat → Emission → Except Failure Emission
  | [], _, e => .ok e
  | _ :: _, [], _ => .error (.runtimeError "vector::_M_range_check")
  | dst :: dsts, offset :: offsets, e =>
      convertDestinations memory baseGlobalRegIndex wideLoadIndex addressWidth dsts offsets
        (convertDestination memory baseGlobalRegIndex wideLoadIndex addressWidth e dst offset)

/-- `indexWidth`. -/
def MemoryDesc.indexWidth (memory : MemoryDesc) : Except Failure Nat :=
  if memory.elementCount == 1 then .ok 1 else log2RoundUp memory.elementCount

/-- The width that the number of choices is computed from. -/
def MemoryDesc.choiceWidth (memory : MemoryDesc) : Except Failure Nat :=
  if memory.elementCount == 1 then .ok 0 else memory.addressWidth

/-- The index operand of a load. -/
def loadIndex (op : Operation) : Except Failure SourceOperand :=
  match op.src[1]? with
  | some index => .ok index
  | none => .error .assertion

/-- The operations that replace a load from a read-only memory. -/
def convertRomLoad (table : RegisterTable) (memory : MemoryDesc) (baseGlobalRegIndex : Nat)
    (load : MemoryOperation) : Except Failure Emission := do
  let indexWidth ← memory.indexWidth
  let index ← loadIndex load.op
  -- Moves the index into a register of the correct width, wrapping
  let (wideLoadIndex, e) := Emission.mov ⟨table, []⟩ indexWidth index (load.op.shouldSignExtend 1)
  assert (!memory.hasReadArbitration)
  assert (load.op.src.length == 2 || load.op.src.length == 3)
  let addressWidth ← memory.choiceWidth
  -- A shift by the width of the type or more is undefined
  assert (addressWidth < 64)
  convertDestinations memory baseGlobalRegIndex wideLoadIndex addressWidth load.op.dst
    load.loadMemory.sourceOffsets e

/-- A load from a memory that becomes a logic RAM. -/
def logicRamLoad (load : MemoryOperation) : MemoryOperation :=
  { load with loadMemory := { load.loadMemory with readLatency := 0, bypass := false } }

/-- What replaces a load, with the register table after it; nothing for a load from a
    memory that is not converted. -/
def convertLoad (infos : List (Nat × MemoryInfo)) (memories : Nat → MemoryDesc)
    (table : RegisterTable) (load : MemoryOperation) :
    Except Failure (Option (List MemoryOperation × RegisterTable)) := do
  let memoryIndex ← loadedMemory load.op
  assert ((table.desc memoryIndex).type == .memory)
  match infos.lookup memoryIndex with
  | none => return none
  | some info =>
      if !info.convert then return none
      else if (memories memoryIndex).isRom then do
        let e ← convertRomLoad table (memories memoryIndex) info.baseGlobalIndex load
        return some (e.ops.map fun op => { op }, e.table)
      else return some ([logicRamLoad load], table)

/-! ## The blocks -/

/-- The search for the compute block of the chain that a load belongs to. -/
def findComputeBlock : List MemoryOperation → Except Failure Unit
  | [] => .error .assertion
  | currOp :: rest =>
      match currOp.op.opcode with
      | .beginAtomic desc =>
          if desc.type = .atomicMemCompute then .ok ()
          else do
            assert (desc.type == .memoryLoadLatency)
            findComputeBlock rest
      | _ => findComputeBlock rest

/-- `insertIt` of a load: whether its operations are inserted behind the start of the
    compute block of the chain, to avoid forwarding hardware. -/
def insertInComputeBlock (load : MemoryOperation) (currAtomicBlockDesc : List AtomicBlockDesc)
    (rest : List MemoryOperation) : Except Failure Bool :=
  if load.loadMemory.bypass then
    match currAtomicBlockDesc with
    | [] => .error .assertion
    | top :: _ =>
        if top.type = .memoryLoad then do
          findComputeBlock rest
          return true
        else do
          assert (top.type == .atomicMemCompute)
          return false
  else .ok false

/-- What the walk over a block carries along: the register table, the stack of atomic
    blocks and the operations to insert behind the start of the next compute block. -/
structure Walk where
  table : RegisterTable
  currAtomicBlockDesc : List AtomicBlockDesc := []
  pending : List MemoryOperation := []

/-- The walk over the operations of a block.  Operations that are inserted further on are
    passed over there: none of them is a load that changes once more. -/
def rewriteOperations (infos : List (Nat × MemoryInfo)) (memories : Nat → MemoryDesc) :
    List MemoryOperation → Walk → Except Failure (List MemoryOperation × RegisterTable)
  | [], w => do
      assert w.currAtomicBlockDesc.isEmpty
      return ([], w.table)
  | op :: rest, w =>
      match op.op.opcode with
      | .beginAtomic desc => do
          let isCompute := desc.type == .atomicMemCompute
          let (ops, table) ← rewriteOperations infos memories rest
            { w with
              currAtomicBlockDesc := desc :: w.currAtomicBlockDesc
              pending := if isCompute then [] else w.pending }
          return (op :: (if isCompute then w.pending else []) ++ ops, table)
      | .endAtomic _ => do
          match w.currAtomicBlockDesc with
          | [] => .error .assertion
          | _ :: outer => do
              let (ops, table) ← rewriteOperations infos memories rest
                { w with currAtomicBlockDesc := outer }
              return (op :: ops, table)
      | .loadMemory => do
          match ← convertLoad infos memories w.table op with
          | none => do
              let (ops, table) ← rewriteOperations infos memories rest w
              return (op :: ops, table)
          | some (replacement, table) => do
              if ← insertInComputeBlock op w.currAtomicBlockDesc rest then do
                rewriteOperations infos memories rest
                  { w with table, pending := replacement ++ w.pending }
              else do
                let (ops, table) ← rewriteOperations infos memories rest { w with table }
                return (replacement ++ ops, table)
      | _ => do
          let (ops, table) ← rewriteOperations infos memories rest w
          return (op :: ops, table)

/-- The walk over all blocks. -/
def rewriteBlocks (infos : List (Nat × MemoryInfo)) (memories : Nat → MemoryDesc) :
    List (List MemoryOperation) → RegisterTable →
      Except Failure (List (List MemoryOperation) × RegisterTable)
  | [], table => .ok ([], table)
  | block :: blocks, table => do
      let (block', table) ← rewriteOperations infos memories block { table }
      let (blocks', table) ← rewriteBlocks infos memories blocks table
      return (block' :: blocks', table)

/-- `MemToArray`: the program after the pass, and whether it changed. -/
def memToArray (config : Config) (program : Program) : Except Failure (Program × Bool) := do
  let infos ← memoriesToConvert config program
  if !infos.any (·.2.convert) then return (program, false)
  else do
    let (table, memories) ← infos.foldlM allocateMemory (program.registerTable, program.memories)
    let (blocks, registerTable) ← rewriteBlocks infos memories program.blocks table
    return ({ registerTable, memories, blocks }, true)

end Kanagawa.Optimize.MemToArray
