/-
  Kanagawa.IR.Semantics

  What operations do when they run.

  A thread owns the values of its local registers.  Everything else (globals,
  memories, FIFOs, other threads, the outside) is the world, of an arbitrary
  type; a machine says how the world is read and what an operation does to it.
  The machine only sees an operation's opcode and flags, the values of its
  sources, and where its destinations lead: local destinations by width, others
  by name.  Operations that only compute have the meaning of the reference
  arithmetic whatever the machine.
-/
import Kanagawa.IR.Basic

namespace Kanagawa.IR

/-- The value of a source operand. -/
inductive Value where
  | bits (value width : Nat)
  | text (s : String)
  deriving Repr, DecidableEq

/-- A destination as a machine sees it. -/
inductive Target where
  | local (width : Nat)
  | external (registerIndex : Nat)
  | fifo (f : FifoSubset)
  deriving Repr, DecidableEq

/-- An operation as a machine sees it. -/
structure OpInfo where
  opcode : Opcode
  signExtendSourceMask : Nat
  tag : Nat
  targets : List Target
  deriving DecidableEq

/-- How the world is read, what an operation does to it and which values it gives its
    destinations, and how the world moves on during an operation that only computes. -/
structure Machine (W : Type) where
  readRegister : W → Nat → Nat
  readFifo : W → FifoSubset → Nat
  exec : OpInfo → List Value → W → List Nat × W
  tick : W → W

/-- The local registers of a thread and the world. -/
structure State (W : Type) where
  locals : Nat → Nat
  world : W

section

variable {W : Type} (m : Machine W) (table : RegisterTable)

def RegisterTable.isLocal (r : Nat) : Bool := (RegisterTable.desc table r).type.isLocal

/-- The value of a source operand; a register's value fits its width. -/
def evalSource (σ : State W) : SourceOperand → Value
  | .literal l => .bits l.value l.width
  | .register r =>
      let value := if table.isLocal r then σ.locals r else m.readRegister σ.world r
      .bits (value % 2 ^ (table.desc r).width) (table.desc r).width
  | .fifo f => .bits (m.readFifo σ.world f) f.width
  | .stringLiteral s => .text s

/-- The values of an operation's sources. -/
def evalSources (σ : State W) (op : Operation) : List Value :=
  op.src.map (evalSource m table σ)

def target : DestinationOperand → Target
  | .register r => if table.isLocal r then .local (table.desc r).width else .external r
  | .fifo f => .fifo f

def Operation.info (op : Operation) : OpInfo :=
  ⟨op.opcode, op.signExtendSourceMask, op.tag, op.dst.map (target table)⟩

/-- Gives local destinations their values, in order. -/
def writeDestinations : List DestinationOperand → List Nat → (Nat → Nat) → Nat → Nat
  | [], _, locals => locals
  | .register r :: dsts, results, locals =>
      writeDestinations dsts results.tail
        (if table.isLocal r then
          Function.update locals r (results.headD 0 % 2 ^ (table.desc r).width)
        else locals)
  | .fifo _ :: dsts, results, locals => writeDestinations dsts results.tail locals

end

/-! ## Operations that only compute -/

def Value.literal? : Value → Option Literal
  | .bits value width => some ⟨value, width⟩
  | .text _ => none

/-- The loop of `Gather`: copies bits from each source to the destination. -/
def gatherBits (entries : List GatherEntry) (sources : List Literal) : Nat :=
  (entries.zip sources).foldl
    (fun combined p =>
      combined ||| (truncate (p.2.value >>> p.1.sourceOffset : Nat) p.1.numBits <<< p.1.destOffset))
    0

/-- `LutEntry::GetTableEntry` at the row the source bits select. -/
def LutEntry.evaluate (entry : LutEntry) (sources : List Literal) : Bool :=
  let row := (entry.sources.zipIdx).foldl
    (fun row p =>
      if ((sources.getD p.1.1 ⟨0, 1⟩).value).testBit p.1.2 then row ||| 2 ^ p.2 else row) 0
  entry.table.testBit row

/-- `Lut::Evaluate`. -/
def lutBits (entries : List LutEntry) (sources : List Literal) : Nat :=
  (entries.zipIdx).foldl
    (fun result p => if p.1.evaluate sources then result ||| 2 ^ p.2 else result) 0

/-- The result of an operation that only computes, in a destination of the given width.
    Where the reference arithmetic has no result the machine decides. -/
def pureResult (opcode : Opcode) (mask dstWidth : Nat) (sources : List Literal) : Option Nat :=
  match opcode, sources with
  | .mov, [a] => (resize a (mask.testBit 0) dstWidth).toOption
  | .clear, _ => some 0
  | .unaryOp type, [a] => (implementUnaryOp a (mask.testBit 0) type dstWidth).toOption
  | .binaryOp type, [a, b] =>
      (implementBinaryOp a b dstWidth (mask.testBit 0) (mask.testBit 1) type).toOption
  | .gather entries, sources => some (gatherBits entries sources)
  | .lut entries, sources => some (lutBits entries sources)
  | _, _ => none

/-- The result of an operation that only computes and has one local destination. -/
def OpInfo.pureResult? (info : OpInfo) (values : List Value) : Option Nat :=
  match info.targets with
  | [.local width] => do
      pureResult info.opcode info.signExtendSourceMask width (← values.mapM Value.literal?)
  | _ => none

section

variable {W : Type} (m : Machine W)

/-- What an operation gives its destinations, and the world after it. -/
def Machine.run (info : OpInfo) (values : List Value) (world : W) : List Nat × W :=
  match info.pureResult? values with
  | some result => ([result], m.tick world)
  | none => m.exec info values world

variable (table : RegisterTable)

/-- One operation. -/
def execOperation (σ : State W) (op : Operation) : State W :=
  let outcome := m.run (op.info table) (evalSources m table σ op) σ.world
  ⟨writeDestinations table op.dst outcome.1 σ.locals, outcome.2⟩

/-- A list of operations, in order. -/
def execOperations (σ : State W) (ops : List Operation) : State W :=
  ops.foldl (execOperation m table) σ

/-- The source values each operation of a list reads. -/
def traceOperations (σ : State W) : List Operation → List (List Value)
  | [] => []
  | op :: ops =>
      evalSources m table σ op :: traceOperations (execOperation m table σ op) ops

end

end Kanagawa.IR
