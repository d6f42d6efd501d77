/-
  Kanagawa.RiscV.Decoder

  `decode_instr` of `processor/risc_v/internal/decoder.k`.

  The decoded instruction is a union of the instruction classes, so that
  writing the fields of one class overwrites bits of the others: it is kept
  as its six bits, and every field is a range of them.
-/
import Kanagawa.RiscV.Isa

namespace Kanagawa.RiscV

/-! ## Enumerations -/

/-- What an ALU instruction computes. -/
inductive ComputeOp where
  | add | sll | slt | sltu | sub | sr | custom | logical
deriving DecidableEq, Repr

/-- The values of `ComputeOp`. -/
def ComputeOp.bits : ComputeOp → BitVec 3
  | add => 0
  | sll => 1
  | slt => 2
  | sltu => 3
  | sub => 4
  | sr => 5
  | custom => 6
  | logical => 7

/-- The bitwise operations. -/
inductive LogicalOp where
  | xor | lui | or | and
deriving DecidableEq, Repr

/-- The values of `LogicalOp`. -/
def LogicalOp.bits : LogicalOp → BitVec 2
  | xor => 0
  | lui => 1
  | or => 2
  | and => 3

/-- The branch conditions. -/
inductive Condition where
  | eq | ne | lt | ge
deriving DecidableEq, Repr

/-- The values of `Condition`. -/
def Condition.bits : Condition → BitVec 2
  | eq => 0
  | ne => 1
  | lt => 2
  | ge => 3

/-- The values of `ControlOp`. -/
inductive ControlOp where
  | branch | jump
deriving DecidableEq, Repr

/-- The values of `ControlOp`. -/
def ControlOp.bits : ControlOp → BitVec 1
  | branch => 0
  | jump => 1

/-- The environment calls and the CSR reads. -/
inductive SystemOp where
  | csrrsCycle | csrrsInstret | csrrsCycleh | csrrsMhartid | ecall | ebreak
deriving DecidableEq, Repr

/-- The values of `SystemOp`. -/
def SystemOp.bits : SystemOp → BitVec 3
  | csrrsCycle => 0
  | csrrsInstret => 1
  | csrrsCycleh => 2
  | csrrsMhartid => 3
  | ecall => 4
  | ebreak => 5

/-- The instruction classes. -/
inductive InstrKind where
  | compute | control | memory | system
deriving DecidableEq, Repr

/-! ## The union -/

/-- The union `DecodedInstr`, whose widest member is `BaseInstr`. -/
abbrev DecodedInstr := BitVec 6

namespace DecodedInstr

variable (u : DecodedInstr)

/-- Overwriting the field of `n` bits that starts at bit `offset`. -/
def setField {n : Nat} (offset : Nat) (v : BitVec n) : DecodedInstr :=
  (u &&& ~~~((BitVec.allOnes n).setWidth 6 <<< offset)) ||| (v.setWidth 6 <<< offset)

/-- `compute.base.op` -/
def baseOp : BitVec 3 := u.extractLsb' 0 3

/-- `compute.base.logical` -/
def baseLogical : BitVec 2 := u.extractLsb' 3 2

/-- `compute.base.sra` -/
def baseSra : Bool := u.getLsbD 5

/-- `compute.mul.op1` is `MulIn::Unsigned`. -/
def mulOp1Unsigned : Bool := u.getLsbD 0

/-- `compute.mul.op2` is `MulIn::Unsigned`. -/
def mulOp2Unsigned : Bool := u.getLsbD 1

/-- `compute.mul.result` is `MulOut::Upper`. -/
def mulUpper : Bool := u.getLsbD 2

/-- `control.op` is `ControlOp::JUMP`. -/
def controlJump : Bool := u.getLsbD 0

/-- `control.condition` -/
def controlCondition : BitVec 2 := u.extractLsb' 1 2

/-- `mem.size`, of the values of `MemorySize` -/
def memSize : BitVec 2 := u.extractLsb' 1 2

/-- `mem.sign_extend` -/
def memSignExtend : Bool := u.getLsbD 3

/-- `system.op` -/
def systemOp : BitVec 3 := u.extractLsb' 0 3

def setBaseOp (op : BitVec 3) : DecodedInstr := u.setField 0 op

def setBaseLogical (op : BitVec 2) : DecodedInstr := u.setField 3 op

def setBaseSra (sra : Bool) : DecodedInstr := u.setField 5 (BitVec.ofBool sra)

/-- `compute.mul = {op1, op2, result}` -/
def setMul (op1Unsigned op2Unsigned upper : Bool) : DecodedInstr :=
  ((u.setField 0 (BitVec.ofBool op1Unsigned)).setField 1 (BitVec.ofBool op2Unsigned)).setField 2
    (BitVec.ofBool upper)

def setControlOp (op : ControlOp) : DecodedInstr := u.setField 0 op.bits

def setControlCondition (c : BitVec 2) : DecodedInstr := u.setField 1 c

/-- `mem.op`, which is one for `MemoryOp::STORE` -/
def setMemOp (store : Bool) : DecodedInstr := u.setField 0 (BitVec.ofBool store)

def setMemSize (size : BitVec 2) : DecodedInstr := u.setField 1 size

def setMemSignExtend (b : Bool) : DecodedInstr := u.setField 3 (BitVec.ofBool b)

def setSystemOp (op : SystemOp) : DecodedInstr := u.setField 0 op.bits

end DecodedInstr

/-- The result of `decode_instr`. -/
structure Decoded where
  instr : DecodedInstr := 0
  kind : InstrKind := .compute
  format : DecodedFormat
  majorOpcode : RVG
  minorOpcode : BitVec 3
  store : Bool := false
  control : Bool := false
  trap : Bool := false
  unsignedComparison : Bool := false
  pcPlus : Bool := false
  mul : Bool := false
  illegal : Bool := false
deriving DecidableEq, Repr

/-! ## Decoding -/

/-- What the branches of `decode_instr` set: the format, and the fields of `Decoded` that are not
the same for every word. -/
structure Selected where
  format : Format := .Invalid
  instr : DecodedInstr
  kind : InstrKind := .compute
  store : Bool := false
  control : Bool := false
  trap : Bool := false
  unsignedComparison : Bool := false
  pcPlus : Bool := false
  mul : Bool := false
deriving DecidableEq, Repr

/-- The three settings of `funct7` that the decoder tells apart from the others. -/
structure Funct7Is where
  is0000000 : Bool
  is0100000 : Bool
  is0000001 : Bool

/-- The comparisons that `decode_instr` makes first. -/
def funct7Is (funct7 : BitVec 7) : Funct7Is where
  is0000000 := funct7 = 0b0000000#7
  is0100000 := funct7 = 0b0100000#7
  is0000001 := funct7 = 0b0000001#7

/-- The union before the branches. -/
def initialInstr (funct3 : BitVec 3) (sra : Bool) : DecodedInstr :=
  (((0 : DecodedInstr).setBaseOp funct3).setBaseLogical (funct3.setWidth 2)).setBaseSra sra

/-- The branch for `RVG::BRANCH`. -/
def selectBranch (u : DecodedInstr) (funct3 : BitVec 3) : Selected where
  format := .B
  kind := .control
  instr :=
    let u := u.setControlOp .branch
    if funct3 = 0b100#3 then u.setControlCondition Condition.lt.bits
    else if funct3 = 0b101#3 then u.setControlCondition Condition.ge.bits
    else u.setControlCondition (funct3.setWidth 2)
  unsignedComparison := funct3 &&& 0b010#3 ≠ 0
  control := true
  pcPlus := true

/-- The branch for `RVG::LOAD`. -/
def selectLoad (u : DecodedInstr) (funct3 : BitVec 3) : Selected where
  format := .I
  kind := .memory
  instr :=
    ((u.setMemOp false).setMemSize (funct3.setWidth 2)).setMemSignExtend (!(funct3.getLsbD 2))

/-- The branch for `RVG::STORE`. -/
def selectStore (u : DecodedInstr) (funct3 : BitVec 3) : Selected where
  format := .S
  kind := .memory
  instr := (u.setMemOp true).setMemSize (funct3.setWidth 2)
  store := true

/-- The branch for `RVG::OP_IMM`. -/
def selectOpImm (u : DecodedInstr) (funct3 : BitVec 3) (funct7 : Funct7Is) : Selected :=
  let unsignedComparison := funct3.getLsbD 0
  if funct3 = 0b100#3 ∨ funct3 = 0b110#3 then
    { format := .I, instr := u.setBaseOp ComputeOp.logical.bits, unsignedComparison }
  else if funct3 = 0b001#3 ∧ funct7.is0000000 = false then
    { format := .Invalid, instr := u, unsignedComparison }
  else if funct3 = 0b101#3 ∧ ¬(funct7.is0000000 = true ∨ funct7.is0100000 = true) then
    { format := .Invalid, instr := u, unsignedComparison }
  else
    { format := .I, instr := u, unsignedComparison }

/-- The branch for `RVG::OP`. The multiplication is chosen by the low two bits of `funct3`. -/
def selectOp (enableMul : Bool) (u : DecodedInstr) (funct3 : BitVec 3) (funct7 : Funct7Is) :
    Selected :=
  let unsignedComparison := funct3.getLsbD 0
  if enableMul = true ∧ funct7.is0000001 = true then
    let funct2 : BitVec 2 := funct3.setWidth 2
    { format := .R
      mul := true
      instr :=
        if funct2 = 0 then u.setMul false false false
        else if funct2 = 1 then u.setMul false false true
        else if funct2 = 2 then u.setMul false true true
        else u.setMul true true true
      unsignedComparison }
  else if funct7.is0000000 = true then
    if funct3 = 0b100#3 ∨ funct3 = 0b110#3 then
      { format := .R, instr := u.setBaseOp ComputeOp.logical.bits, unsignedComparison }
    else
      { format := .R, instr := u, unsignedComparison }
  else if funct7.is0100000 = true then
    if funct3 = 0b000#3 then
      { format := .R, instr := u.setBaseOp ComputeOp.sub.bits, unsignedComparison }
    else if funct3 = 0b101#3 then
      { format := .R, instr := u, unsignedComparison }
    else
      { instr := u, unsignedComparison }
  else
    { instr := u, unsignedComparison }

/-- The branch for `RVG::SYSTEM`. -/
def selectSystem (u : DecodedInstr) (instr : Instr) : Selected :=
  if instr.funct3 = 0b000#3 ∧ instr.rd = 0 ∧ instr.rs1 = 0 ∧ instr.imm110 >>> 1 = 0 then
    { format := .I
      kind := .system
      trap := true
      instr := u.setSystemOp (if instr.imm110.getLsbD 0 = false then .ecall else .ebreak) }
  else if instr.funct3 = 0b010#3 ∧ instr.rs1 = 0 then
    let u := u.setSystemOp .csrrsMhartid
    let low : BitVec 2 := instr.imm110.setWidth 2
    if instr.imm110 = 0xF14#12 then
      { format := .I, kind := .system, instr := u }
    else if instr.imm110 >>> 5 = 0xC00#12 >>> 5 then
      { format := .I
        kind := .system
        instr :=
          if low = 0 then u.setSystemOp .csrrsCycle
          else if low = 1 then u.setSystemOp .csrrsCycle
          else if low = 2 then u.setSystemOp .csrrsInstret
          else u }
    else if instr.imm110 >>> 5 = 0xC80#12 >>> 5 then
      { format := .I
        kind := .system
        instr :=
          if low = 0 then u.setSystemOp .csrrsCycleh
          else if low = 1 then u.setSystemOp .csrrsCycleh
          else u }
    else
      { kind := .system, instr := u }
  else
    { kind := .system, instr := u }

/-- The branches of `decode_instr` over the major opcode. -/
def select (enableMul : Bool) (instr : Instr) (customDecode : RVG → Format) : Selected :=
  let funct3 := instr.funct3
  let funct7 := funct7Is instr.funct7
  let u := initialInstr funct3 funct7.is0100000
  match instr.opcode with
  | .lui =>
    { format := .U
      instr := (u.setBaseOp ComputeOp.logical.bits).setBaseLogical LogicalOp.lui.bits }
  | .auipc => { format := .U, instr := u.setBaseOp ComputeOp.add.bits, pcPlus := true }
  | .jal =>
    { format := .J, kind := .control, instr := u.setControlOp .jump, control := true
      pcPlus := true }
  | .jalr => { format := .I, kind := .control, instr := u.setControlOp .jump, control := true }
  | .branch => selectBranch u funct3
  | .load => selectLoad u funct3
  | .store => selectStore u funct3
  | .opImm => selectOpImm u funct3 funct7
  | .op => selectOp enableMul u funct3 funct7
  | .system => selectSystem u instr
  | .miscMem =>
    if funct3 = 0b000#3 ∧ instr.rd = 0 ∧ instr.rs1 = 0 then
      { format := .I, instr := u }
    else
      { instr := u }
  | .custom0 | .custom1 | .custom2 | .custom3 =>
    { format := customDecode instr.opcode, instr := u.setBaseOp ComputeOp.custom.bits }
  | _ => { instr := u }

/-- `decode_instr`, with `ENABLE_MUL` of the extensions and
`NoExceptionForCompressedEncoding` of the options. -/
def decodeInstr (enableMul noExceptionForCompressedEncoding : Bool) (instr : Instr)
    (customDecode : RVG → Format) : Decoded :=
  let selected := select enableMul instr customDecode
  { instr := selected.instr
    kind := selected.kind
    format := decodeFormat instr selected.format
    majorOpcode := instr.opcode
    minorOpcode := instr.funct3
    store := selected.store
    control := selected.control
    trap := selected.trap
    unsignedComparison := selected.unsignedComparison
    pcPlus := selected.pcPlus
    mul := selected.mul
    illegal := selected.format = .Invalid ∨
      noExceptionForCompressedEncoding = false ∧ instr.inst10 ≠ 0b11#2 }

end Kanagawa.RiscV
