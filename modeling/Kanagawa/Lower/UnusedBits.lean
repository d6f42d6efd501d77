/-
  Kanagawa.Lower.UnusedBits

  The bits of registers that do not affect the output of a function
  (`DetermineUnusedBitsForFunction`, `lower.cpp`).

  A backward data-flow analysis collects the bits that are used.  An operation that the
  outside sees uses all bits of its sources.  Every other operation is looked at as a lookup
  table, if it can be lowered to one, and passes the use of a bit of its destination on to
  the bits of the sources that the entry of this bit looks at.
-/
import Kanagawa.Optimize.DataFlowAnalysis
import Kanagawa.Optimize.PackLuts

namespace Kanagawa.Lower.UnusedBits

open Kanagawa.IR Kanagawa.Optimize

/-- `used_bit_set_t`, and a value of `RegisterToBitSet`: bits of one register. -/
abbrev BitSet := Finset Nat

/-! ## The callback -/

/-- `regToUsedBits[registerIndex]`, with more bits in it. -/
def insertUsedBits (regToUsedBits : RegisterMap BitSet) (registerIndex : Nat) (bits : BitSet) :
    RegisterMap BitSet :=
  regToUsedBits.insert registerIndex (regToUsedBits.getD registerIndex ∅ ∪ bits)

/-- A use of some bits of a source operand, which counts for local registers only. -/
def useSource (table : RegisterTable) (bits : BitSet) (regToUsedBits : RegisterMap BitSet) :
    SourceOperand → RegisterMap BitSet
  | .register registerIndex =>
      if (table.desc registerIndex).type.isLocal then insertUsedBits regToUsedBits registerIndex bits
      else regToUsedBits
  | _ => regToUsedBits

/-- The operations that force all their sources to be live: those that are always live, and
    those with a destination that is not a register. -/
def forceLive (op : Operation) : Bool :=
  op.opcode.isLive || op.dst.any fun dstOp => dstOp.register?.isNone

/-- The entries of the lookup table that an operation is, if it can be lowered to one. -/
def lutForm (table : RegisterTable) (op : Operation) : Except Failure (Option (List LutEntry)) :=
  if canOpcodeBeLoweredToLut op.opcode then do
    let lowered ← lowerToLut table op
    match lowered with
    | (true, { opcode := .lut entries, .. }) => return some entries
    | _ => return none
  else return none

/-- The loop over the sources of an entry. -/
def useEntry (table : RegisterTable) (src : List SourceOperand) (lutEntry : LutEntry)
    (regToUsedBits : RegisterMap BitSet) : RegisterMap BitSet :=
  lutEntry.sources.foldl
    (fun regToUsedBits s =>
      match src[s.1]? with
      | some srcOperand => useSource table {s.2} regToUsedBits srcOperand
      | none => regToUsedBits)
    regToUsedBits

/-- The loop over the bits of the destination.  Where the destination is a source as well, bits
    that the loop adds count for the bits after them. -/
def useEntries (table : RegisterTable) (src : List SourceOperand) (dstReg : Nat)
    (entries : List LutEntry) (regToUsedBits : RegisterMap BitSet) : RegisterMap BitSet :=
  entries.zipIdx.foldl
    (fun regToUsedBits p =>
      if p.2 ∈ regToUsedBits.getD dstReg ∅ then useEntry table src p.1 regToUsedBits
      else regToUsedBits)
    regToUsedBits

/-- All bits of all sources are used. -/
def useAllSources (table : RegisterTable) (src : List SourceOperand)
    (regToUsedBits : RegisterMap BitSet) : RegisterMap BitSet :=
  src.foldl
    (fun regToUsedBits srcOp =>
      useSource table (Finset.range (srcOp.width table)) regToUsedBits srcOp)
    regToUsedBits

/-- `operationCb`.  Where an assertion of `LowerToLut` fails the analysis gives no result, see
    `checkLowering`. -/
def operationCb (table : RegisterTable) (inputOp : Operation)
    (regToUsedBits : RegisterMap BitSet) : RegisterMap BitSet :=
  if forceLive inputOp then useAllSources table inputOp.src regToUsedBits
  else
    match lutForm table inputOp, inputOp.dst with
    | .ok (some entries), [.register dstReg] =>
        useEntries table inputOp.src dstReg entries regToUsedBits
    -- It could not be interpreted as a lookup table
    | _, _ => useAllSources table inputOp.src regToUsedBits

/-! ## The analysis -/

/-- What the analysis gets of the control flow graph of a function after pipelining. -/
structure PostPipelineGraph where
  function : IR.Function
  front : Nat
  back : Nat
  translateRegisterIndex : Nat → Nat → Nat → Option Nat

/-- `dfa`. -/
def dfa (table : RegisterTable) (cfg : PostPipelineGraph) : DataFlowAnalysis BitSet where
  table := table
  function := cfg.function
  mode := .scheduled
  direction := .backward
  front := cfg.front
  back := cfg.back
  translateRegisterIndex := cfg.translateRegisterIndex
  -- A set of bits does not contain register indices
  translateCb inputBits _ _ := inputBits
  joinCb a b := a ∪ b
  opCallback := operationCb table

/-- The callback calls `LowerToLut` for the operations that are not forced to be live. -/
def checkLowering (table : RegisterTable) (op : Operation) : Except Failure Unit :=
  if forceLive op then return () else (fun _ => ()) <$> lutForm table op

/-- The bits of a register that are not among the used ones. -/
def unusedBits (table : RegisterTable) (registerIndex : Nat) (usedBits : BitSet) : BitSet :=
  (Finset.range (table.desc registerIndex).width).filter (· ∉ usedBits)

/-- The loop body over the destinations of an operation: the conversion from used to unused. -/
def recordDestination (table : RegisterTable) (regToUsedBits : RegisterMap BitSet)
    (result : RegisterMap BitSet) : DestinationOperand → Except Failure (RegisterMap BitSet)
  | .fifo _ => .ok result
  | .register registerIndex => do
      assert (!result.contains registerIndex)
      match regToUsedBits[registerIndex]? with
      | none => return result
      | some usedBits => do
          assert (table.desc registerIndex).type.isLocal
          let unused := unusedBits table registerIndex usedBits
          if unused = ∅ then return result else safeInsert result registerIndex unused

/-- The loop over the operations of a block. -/
def recordBlock (table : RegisterTable) (operations : List Operation)
    (regToUsedBits result : RegisterMap BitSet) : Except Failure (RegisterMap BitSet) :=
  (operations.flatMap Operation.dst).foldlM (recordDestination table regToUsedBits) result

/-- `DetermineUnusedBitsForFunction`; `none` when the fuel of the data-flow analysis runs out. -/
def determineUnusedBitsForFunction (table : RegisterTable) (cfg : PostPipelineGraph)
    (fuel : Nat) (result : RegisterMap BitSet) : Option (Except Failure (RegisterMap BitSet)) :=
  ((dfa table cfg).run fuel).map fun outcome => do
    let s ← outcome
    let blocks := List.range (dfa table cfg).blockCount
    let processed := blocks.filter s.processedBasicBlocks
    (processed.flatMap (dfa table cfg).operations).forM (checkLowering table)
    -- Store final results
    blocks.foldlM
      (fun result bb => recordBlock table ((dfa table cfg).operations bb) (s.basicBlockMaps bb) result)
      result

end Kanagawa.Lower.UnusedBits
