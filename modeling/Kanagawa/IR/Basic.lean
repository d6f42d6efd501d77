/-
  Kanagawa.IR.Basic

  The intermediate representation (`ir.h`, `ir.cpp`): registers, operands,
  operations and basic blocks.

  An opcode carries the flags of the `_flags` union that the passes read; what
  no pass reads (memory ports, print formats, messages, source locations) is
  summed up in the operation's `tag`, so that two operations with different
  flags stay different.  Pointers to basic blocks are block numbers.
-/
import Kanagawa.Arith.Literal
import Std.Data.ExtTreeMap.Lemmas

namespace Kanagawa.IR

/-! ## Registers -/

/-- `RegisterType`. -/
inductive RegisterType where
  | global | local | pipeline | fifo | wire | memory | globalView | bitBucket
  deriving Repr, DecidableEq, Inhabited

/-- `RegisterDescription`, with the fields of `GlobalDesc` that are read. -/
structure RegisterDescription where
  width : Nat
  type : RegisterType
  isDirectSource : Bool
  isConstant : Bool
  initialValue : Option Nat
  deriving Repr, DecidableEq, Inhabited

/-- `RegisterTable`, indexed by register. -/
abbrev RegisterTable := List RegisterDescription

/-- `program._registerTable[registerIndex]`. -/
def RegisterTable.desc (table : RegisterTable) (registerIndex : Nat) : RegisterDescription :=
  table.getD registerIndex default

/-- `IsRegisterTypeAllowedInKillMoves`. -/
def RegisterType.allowedInKillMoves : RegisterType → Bool
  | .local => true
  | _ => false

/-- `CanRegisterTypeBeRenamed`: only local registers can. -/
def RegisterType.canBeRenamed : RegisterType → Bool
  | .local => true
  | _ => false

/-- `IsLocalRegisterType`: registers local to a basic block. -/
def RegisterType.isLocal : RegisterType → Bool
  | .local | .pipeline | .wire => true
  | _ => false

/-- `AllocateRegister`: the new register is the next one of the table. -/
def allocateRegister (table : RegisterTable) (regDesc : RegisterDescription) :
    Nat × RegisterTable :=
  (table.length, table ++ [regDesc])

theorem desc_of_grow {table table' : RegisterTable} (h : table <+: table') {r : Nat}
    (hr : r < table.length) : table'.desc r = table.desc r := by
  obtain ⟨rest, rfl⟩ := h
  rw [RegisterTable.desc, RegisterTable.desc, List.getD_append _ _ _ _ hr]

theorem desc_append_self (table : RegisterTable) (regDesc : RegisterDescription) :
    RegisterTable.desc (table ++ [regDesc]) table.length = regDesc := by
  rw [RegisterTable.desc, List.getD_append_right _ _ _ _ (Nat.le_refl _), Nat.sub_self]
  rfl

/-! ## Operands -/

/-- `FifoSubset`. -/
structure FifoSubset where
  registerIndex : Nat
  offset : Nat
  width : Nat
  deriving Repr, DecidableEq

/-- `SourceOperand`. -/
inductive SourceOperand where
  | literal (l : Literal)
  | register (registerIndex : Nat)
  | fifo (f : FifoSubset)
  | stringLiteral (s : String)
  deriving Repr, DecidableEq

/-- `DestinationOperand`. -/
inductive DestinationOperand where
  | register (registerIndex : Nat)
  | fifo (f : FifoSubset)
  deriving Repr, DecidableEq

/-- `SourceOperand::Width`. -/
def SourceOperand.width (table : RegisterTable) : SourceOperand → Nat
  | .literal l => l.width
  | .register r => (table.desc r).width
  | .fifo f => f.width
  | .stringLiteral _ => 0

/-- `DestinationOperand::Width`. -/
def DestinationOperand.width (table : RegisterTable) : DestinationOperand → Nat
  | .register r => (table.desc r).width
  | .fifo f => f.width

/-- The register a source operand names, if any. -/
def SourceOperand.register? : SourceOperand → Option Nat
  | .register r => some r
  | _ => none

/-- The register a destination operand names, if any. -/
def DestinationOperand.register? : DestinationOperand → Option Nat
  | .register r => some r
  | .fifo _ => none

/-! ## Operations -/

/-- `GatherEntry`; offsets are in bits. -/
structure GatherEntry where
  sourceOffset : Nat
  destOffset : Nat
  numBits : Nat
  deriving Repr, DecidableEq

/-- `LutEntry`: for each source its operand index and bit, and the table of outputs. -/
structure LutEntry where
  sources : List (Nat × Nat)
  table : Nat
  deriving Repr, DecidableEq

/-- `AtomicBlockType`. -/
inductive AtomicBlockType where
  | default | atomicMemCompute | memoryLoad | memoryLoadLatency | memoryStore | fork | join
  deriving Repr, DecidableEq

/-- `AtomicBlockDesc`. -/
structure AtomicBlockDesc where
  type : AtomicBlockType
  containsAtomic : Bool
  updateRate : Nat
  chainIndex : Nat
  deriving Repr, DecidableEq

/-- `EnqueueType`. -/
inductive EnqueueType where
  | default | reorderBuffer | contextSaverCaller | functionCall | contextSaverCallee
  deriving Repr, DecidableEq

/-- `Opcode`, with the flags of the operation that depend on it. -/
inductive Opcode where
  | mov
  | movCrossFunction
  | clear
  | unaryOp (type : UnaryOpType)
  | binaryOp (type : BinaryOpType)
  | beginAtomic (desc : AtomicBlockDesc)
  | endAtomic (desc : AtomicBlockDesc)
  | assert
  | enqueue (isPredicated : Bool)
  | select
  | writeGlobal (isPredicated : Bool)
  | print
  | gather (entries : List GatherEntry)
  | storeMemory
  | loadMemory
  | bypassMemory
  | acquireSemaphore
  | releaseSemaphore
  | callAtomic
  | atomicReturn
  | fanOut
  | stage
  | startCondition (globalsBefore : Bool)
  | cycleCounter
  | movLatencyPlaceholder
  | lineNumber
  | lut (entries : List LutEntry)
  | inlineExternalModule (isLive : Bool)
  | readSelectedFifo
  | externalPlaceholder
  | debugView
  | enqueueRegisters (fifoIndex : Nat) (offsets : List Nat)
  | dequeueRegisters (fifoIndex : Nat) (offsets : List Nat)
  | pushPredicate
  | popPredicate
  | stallCheck (globalsAfter : Bool)
  | locationRecord
  | conditionalIgnore
  | formatString
  | formatEnum
  | referenceString
  | assertStringEqual
  | stringCount
  | noOp
  deriving Repr, DecidableEq

/-- `_isLive` of the opcode table, and `IsLiveOperation`: dead code elimination does not
    remove the operation. -/
def Opcode.isLive : Opcode → Bool
  | .movCrossFunction | .beginAtomic _ | .endAtomic _ | .assert | .enqueue _ | .writeGlobal _
  | .print | .storeMemory | .acquireSemaphore | .releaseSemaphore | .atomicReturn | .stage
  | .startCondition _ | .lineNumber | .externalPlaceholder | .debugView | .enqueueRegisters _ _
  | .pushPredicate | .popPredicate | .formatString | .formatEnum | .referenceString
  | .assertStringEqual | .noOp => true
  | .inlineExternalModule isLive => isLive
  | _ => false

/-- `ShouldPreserveInputRegisters`. -/
def Opcode.preserveInputReg : Opcode → Bool
  | .enqueue _ => true
  | _ => false

/-- `SafeInsert` into a map. -/
def safeInsert {α : Type} (map : Std.ExtTreeMap Nat α) (key : Nat) (value : α) :
    Except Failure (Std.ExtTreeMap Nat α) :=
  if map.contains key then .error (.runtimeError "Item already exists in a map")
  else .ok (map.insert key value)

/-- `SafeLookup`. -/
def safeLookup {α : Type} (map : Std.ExtTreeMap Nat α) (key : Nat) : Except Failure α :=
  match map[key]? with
  | some value => .ok value
  | none => .error (.runtimeError "Failed to lookup value in a map")

theorem safeInsert_of_none {α : Type} {map : Std.ExtTreeMap Nat α} {key : Nat} {value : α}
    (h : map[key]? = none) : safeInsert map key value = .ok (map.insert key value) := by
  rw [safeInsert, Std.ExtTreeMap.contains_eq_isSome_getElem?, h]
  rfl

theorem safeLookup_of_some {α : Type} {map : Std.ExtTreeMap Nat α} {key : Nat} {value : α}
    (h : map[key]? = some value) : safeLookup map key = .ok value := by
  rw [safeLookup, h]

/-- `RegisterIndexMap`. -/
abbrev RegisterIndexMap := Std.ExtTreeMap Nat Nat

/-- `Operation`.  The last three fields are only used by `Enqueue`. -/
structure Operation where
  opcode : Opcode
  signExtendSourceMask : Nat := 0
  src : List SourceOperand := []
  dst : List DestinationOperand := []
  tag : Nat := 0
  successorBlock : Option Nat := none
  renamingTable : RegisterIndexMap := ∅
  reverseRenamingTable : RegisterIndexMap := ∅

/-- `ShouldSignExtend`. -/
def Operation.shouldSignExtend (op : Operation) (srcOperand : Nat) : Bool :=
  op.signExtendSourceMask.testBit srcOperand

def Operation.isEnqueue (op : Operation) : Bool :=
  match op.opcode with
  | .enqueue _ => true
  | _ => false

/-- The registers an operation reads, as `GetAccessedRegisters` lists them. -/
def Operation.reads (op : Operation) : List Nat :=
  op.src.filterMap SourceOperand.register?

/-- The registers an operation writes, as `GetAccessedRegisters` lists them. -/
def Operation.writes (op : Operation) : List Nat :=
  op.dst.filterMap DestinationOperand.register?

/-- `OptionallyMapIndex`. -/
def optionallyMapIndex (index : Nat) (map : RegisterIndexMap) : Nat :=
  map.getD index index

/-- `MapOriginalToRenamedRegisterIndex`. -/
def Operation.mapOriginalToRenamedRegisterIndex (op : Operation) (originalIndex : Nat) : Nat :=
  optionallyMapIndex originalIndex op.renamingTable

/-- `MapRenamedToOriginalRegisterIndex`. -/
def Operation.mapRenamedToOriginalRegisterIndex (op : Operation) (renamedIndex : Nat) : Nat :=
  optionallyMapIndex renamedIndex op.reverseRenamingTable

/-! ## Basic blocks -/

/-- `Stage`, before pipelining. -/
structure Stage where
  atomicSequence : Nat := 0
  operations : List Operation

/-- `BasicBlock`. -/
structure BasicBlock where
  startConditionOperations : List Operation := []
  operations : List Operation
  stages : List Stage := []

/-- `OperationEnumerationMode`. -/
inductive OperationEnumerationMode where
  | unscheduled | scheduled
  deriving Repr, DecidableEq

/-- The operations of a block in the order of `ForEachOperationForward`. -/
def BasicBlock.allOperations (basicBlock : BasicBlock) : List Operation :=
  basicBlock.startConditionOperations ++ basicBlock.operations ++
    basicBlock.stages.flatMap Stage.operations

/-- The operations that `ForEachOperationForward` visits in a mode. -/
def BasicBlock.operationsIn (basicBlock : BasicBlock) : OperationEnumerationMode → List Operation
  | .unscheduled => basicBlock.allOperations
  | .scheduled => basicBlock.stages.flatMap Stage.operations

end Kanagawa.IR
