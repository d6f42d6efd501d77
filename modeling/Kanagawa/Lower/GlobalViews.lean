/-
  Kanagawa.Lower.GlobalViews

  Operands that are functions of global variables (`InsertGlobalViews`, `lower.cpp`).

  In an atomic block, a local register that is computed from globals only and read by an
  operation with registered inputs is replaced by a global view: a register that the
  hardware keeps equal to a function of the globals.  The function is the list of
  operations that compute the local, in an order in which they can run.

  The source maps a register to a pointer to the operation that writes it; the model
  keeps the place of the operation in the block, as the pass neither inserts nor removes
  operations.
-/
import Kanagawa.IR.Basic

namespace Kanagawa.Lower.GlobalViews

open Kanagawa.IR

/-- An operation, with the latency in its flags if it is a `LoadMemory` or an
    `InlineExternalModule`. -/
structure AtomicOperation where
  op : Operation
  latency : Nat := 0

/-- `OperationHasRegisteredInput`. -/
def operationHasRegisteredInput (operation : AtomicOperation) : Bool :=
  match operation.op.opcode with
  | .inlineExternalModule _ => decide (1 ≤ operation.latency)
  | .loadMemory => operation.latency != 0
  | .storeMemory | .movLatencyPlaceholder => true
  | _ => false

/-- Whether a register is a local variable. -/
def isLocalVariable (table : RegisterTable) (r : Nat) : Bool := (table.desc r).type == .local

/-- Whether a register is a global variable. -/
def isGlobalVariable (table : RegisterTable) (r : Nat) : Bool := (table.desc r).type == .global

/-! ## Flattening -/

/-- `_registerMap`: the place of the operation that computes a register. -/
abbrev RegisterMap := Std.ExtTreeMap Nat Nat

/-- The operation at a place. -/
def operationAt (operations : List AtomicOperation) (place : Nat) :
    Except Failure AtomicOperation :=
  match operations[place]? with
  | some operation => .ok operation
  | none => .error .assertion

/-- `FlattenFunction`.  The source has no bound on the depth of its recursion. -/
def flattenFunction (registerMap : RegisterMap) (operations : List AtomicOperation) :
    Nat → Nat → Except Failure (List AtomicOperation)
  | 0, _ => .error (.runtimeError "the recursion has no end")
  | depth + 1, srcIdx => do
      let writeOp ← operationAt operations (← safeLookup registerMap srcIdx)
      -- Recurse to all operations that wrote sources of `writeOp`
      let lists ← (writeOp.op.reads.filter registerMap.contains).mapM
        (flattenFunction registerMap operations depth)
      return lists.flatten ++ [writeOp]

/-! ## The state of the pass -/

/-- `InsertGlobalViewsHelper`, with the registers and the global view functions of the
    program, the number of atomic blocks that are open, and the operations visited. -/
structure InsertGlobalViewsHelper where
  registerTable : RegisterTable
  globalViewFunctions : List (Nat × List AtomicOperation) := []
  registerMap : RegisterMap := ∅
  precomputeMap : Std.ExtTreeMap Nat Nat := ∅
  atomicDepth : Nat := 0
  operations : List AtomicOperation := []

/-- `isFunctionOfOnlyGlobals`. -/
def isFunctionOfOnlyGlobals (table : RegisterTable) (registerMap : RegisterMap)
    (op : Operation) : Bool :=
  !op.opcode.isLive && op.src.all fun srcOp =>
    match srcOp with
    | .register r =>
        -- A global, or a local that is itself a function of globals
        isGlobalVariable table r || (isLocalVariable table r && registerMap.contains r)
    | _ => true

/-- Record a destination register, if it is a local variable. -/
def recordRegister (table : RegisterTable) (place : Nat) (registerMap : RegisterMap) (r : Nat) :
    Except Failure RegisterMap :=
  -- For fixed-latency external calls, the register type can be wire
  if isLocalVariable table r then safeInsert registerMap r place else .ok registerMap

/-- Record the destination registers written by an operation. -/
def recordDestinations (table : RegisterTable) (place : Nat) (registerMap : RegisterMap) :
    List DestinationOperand → Except Failure RegisterMap
  | [] => .ok registerMap
  | .register r :: rest => do
      recordDestinations table place (← recordRegister table place registerMap r) rest
  | .fifo _ :: _ => .error .assertion

/-- The global view of a local register, which is allocated at its first use. -/
def globalViewOf (helper : InsertGlobalViewsHelper) (srcRegIdx : Nat) :
    Nat × InsertGlobalViewsHelper :=
  match helper.precomputeMap[srcRegIdx]? with
  | some globalViewReg => (globalViewReg, helper)
  | none =>
      let (globalViewReg, table) := allocateRegister helper.registerTable
        { helper.registerTable.desc srcRegIdx with type := .globalView }
      (globalViewReg, { helper with
        registerTable := table
        precomputeMap := helper.precomputeMap.insert srcRegIdx globalViewReg })

/-- The loop over the operands of an operation with registered inputs. -/
def replaceOperands (helper : InsertGlobalViewsHelper) :
    List SourceOperand → List SourceOperand × InsertGlobalViewsHelper
  | [] => ([], helper)
  | .register r :: rest =>
      if isLocalVariable helper.registerTable r && helper.registerMap.contains r then
        let (globalViewReg, helper) := globalViewOf helper r
        let (rest, helper) := replaceOperands helper rest
        (.register globalViewReg :: rest, helper)
      else
        let (rest, helper) := replaceOperands helper rest
        (.register r :: rest, helper)
  | srcOp :: rest =>
      let (rest, helper) := replaceOperands helper rest
      (srcOp :: rest, helper)

/-- The operation is visited. -/
def InsertGlobalViewsHelper.visited (helper : InsertGlobalViewsHelper)
    (operation : AtomicOperation) : InsertGlobalViewsHelper :=
  { helper with operations := helper.operations ++ [operation] }

/-- The registers that an operation computes from globals are recorded. -/
def InsertGlobalViewsHelper.recorded (helper : InsertGlobalViewsHelper)
    (operation : AtomicOperation) : Except Failure InsertGlobalViewsHelper :=
  if isFunctionOfOnlyGlobals helper.registerTable helper.registerMap operation.op then do
    let registerMap ← recordDestinations helper.registerTable helper.operations.length
      helper.registerMap operation.op.dst
    return { helper with registerMap := registerMap }
  else .ok helper

/-- `UpdateState`. -/
def InsertGlobalViewsHelper.updateState (helper : InsertGlobalViewsHelper)
    (operation : AtomicOperation) : Except Failure InsertGlobalViewsHelper := do
  let helper ← helper.recorded operation
  -- Only modify operations which have registered input
  if operationHasRegisteredInput operation then
    let (src, helper) := replaceOperands helper operation.op.src
    return helper.visited { operation with op := { operation.op with src := src } }
  else
    return helper.visited operation

/-- `EmitOperations`. -/
def InsertGlobalViewsHelper.emitOperations (helper : InsertGlobalViewsHelper) :
    Except Failure (List (Nat × List AtomicOperation)) :=
  helper.precomputeMap.toList.mapM fun p => do
    assert ((helper.registerTable.desc p.2).type == .globalView)
    return (p.2, ← flattenFunction helper.registerMap helper.operations
      (helper.operations.length + 1) p.1)

/-- The callback of `ComputeAddresses`. -/
def InsertGlobalViewsHelper.step (helper : InsertGlobalViewsHelper)
    (operation : AtomicOperation) : Except Failure InsertGlobalViewsHelper :=
  match operation.op.opcode with
  | .beginAtomic _ => do
      assert helper.precomputeMap.isEmpty
      -- Memory loads only occur in leaf atomic blocks: discard what is known
      return { helper.visited operation with
        registerMap := ∅
        atomicDepth := helper.atomicDepth + 1 }
  | .endAtomic _ => do
      assert (0 < helper.atomicDepth)
      let emitted ← helper.emitOperations
      return { helper.visited operation with
        globalViewFunctions := helper.globalViewFunctions ++ emitted
        registerMap := ∅
        precomputeMap := ∅
        atomicDepth := helper.atomicDepth - 1 }
  | _ => if 0 < helper.atomicDepth then helper.updateState operation
      else .ok (helper.visited operation)

/-- The operations of a block are visited one after the other. -/
def visit (table : RegisterTable) (operations : List AtomicOperation) :
    Except Failure InsertGlobalViewsHelper :=
  operations.foldlM InsertGlobalViewsHelper.step { registerTable := table }

/-- `ComputeAddresses`. -/
def computeAddresses (table : RegisterTable) (operations : List AtomicOperation) :
    Except Failure InsertGlobalViewsHelper := do
  let helper ← visit table operations
  assert (helper.atomicDepth == 0)
  assert helper.registerMap.isEmpty
  assert helper.precomputeMap.isEmpty
  return helper

end Kanagawa.Lower.GlobalViews
