/-
  Kanagawa.RiscV.Isa

  The instruction words of `processor/risc_v/isa.k`: the fields of the six
  formats, the immediates that are put together from them, and
  `decode_format`.

  The formats are structs of one union, so that a field is a range of bits of
  the word, and the first member of a struct is in its lowest bits.
-/
import Mathlib

namespace Kanagawa.RiscV

/-- An `int_t` or `uint_t` of RV32I: its bits. -/
abbrev Word := BitVec 32

/-- A byte of data memory. -/
abbrev Byte := BitVec 8

/-- An instruction word, the union `Instr`. -/
abbrev Instr := BitVec 32

/-- A register index, `Reg`. -/
abbrev Reg := BitVec 5

/-! ## Major opcodes -/

/-- The general-purpose major opcodes, in the order of their values. -/
inductive RVG where
  | load | loadFp | custom0 | miscMem | opImm | auipc | opImm32 | long0
  | store | storeFp | custom1 | amo | op | lui | op32 | long1
  | madd | msub | nmsub | nmadd | opFp | reserved0 | custom2 | long2
  | branch | jalr | reserved1 | jal | system | reserved2 | custom3 | long3
deriving DecidableEq, Repr

namespace RVG

/-- The enumerators. -/
def all : List RVG :=
  [load, loadFp, custom0, miscMem, opImm, auipc, opImm32, long0,
    store, storeFp, custom1, amo, op, lui, op32, long1,
    madd, msub, nmsub, nmadd, opFp, reserved0, custom2, long2,
    branch, jalr, reserved1, jal, system, reserved2, custom3, long3]

/-- The enumerator of a value. -/
def ofBits (b : BitVec 5) : RVG := all.getD b.toNat long3

end RVG

/-! ## Fields -/

namespace Instr

variable (i : Instr)

/-- `opcode.inst_1_0` -/
def inst10 : BitVec 2 := i.extractLsb' 0 2

/-- `opcode.opcode` -/
def opcode : RVG := RVG.ofBits (i.extractLsb' 2 5)

/-- `rd` of the R, I, U and J formats -/
def rd : Reg := i.extractLsb' 7 5

/-- `funct3` of the R, I, S and B formats -/
def funct3 : BitVec 3 := i.extractLsb' 12 3

/-- `rs1` of the R, I, S and B formats -/
def rs1 : Reg := i.extractLsb' 15 5

/-- `rs2` of the R, S and B formats -/
def rs2 : Reg := i.extractLsb' 20 5

/-- `r.funct7` -/
def funct7 : BitVec 7 := i.extractLsb' 25 7

/-- `i.imm_11_0` -/
def imm110 : BitVec 12 := i.extractLsb' 20 12

/-! ## Immediates -/

/-- `I_immediate` -/
def iImmediate : Word := i.imm110.signExtend 32

/-- `S_immediate`, from `imm_11_5` and `imm_4_0` -/
def sImmediate : Word := (i.extractLsb' 25 7 ++ i.extractLsb' 7 5 : BitVec 12).signExtend 32

/-- `B_immediate`, from `imm_12`, `imm_11`, `imm_10_5` and `imm_4_1` -/
def bImmediate : Word :=
  (i.extractLsb' 31 1 ++ i.extractLsb' 7 1 ++ i.extractLsb' 25 6 ++ i.extractLsb' 8 4 ++ 0#1 :
    BitVec 13).signExtend 32

/-- `U_immediate`, from `imm_31_12` -/
def uImmediate : Word := (i.extractLsb' 12 20 ++ 0#12 : BitVec 32).signExtend 32

/-- `J_immediate`, from `imm_20`, `imm_19_12`, `imm_11` and `imm_10_1` -/
def jImmediate : Word :=
  (i.extractLsb' 31 1 ++ i.extractLsb' 12 8 ++ i.extractLsb' 20 1 ++ i.extractLsb' 21 10 ++ 0#1 :
    BitVec 21).signExtend 32

end Instr

/-! ## Formats -/

/-- The instruction formats. -/
inductive Format where
  | R | I | S | B | U | J | Invalid
deriving DecidableEq, Repr

/-- `Types<Base::RV32I>::Decoded`. A register that is not valid is not there. -/
structure DecodedFormat where
  rd : Option Reg
  rs1 : Option Reg
  rs2 : Option Reg
  imm : Word
  funct7 : BitVec 7
deriving DecidableEq, Repr

/-- `make_optional` -/
def makeOptional {α : Type*} (isValid : Bool) (value : α) : Option α :=
  if isValid then some value else none

/-- `decode_format` -/
def decodeFormat (instr : Instr) (format : Format) : DecodedFormat where
  rd := makeOptional (format ≠ .B ∧ format ≠ .S ∧ instr.rd ≠ 0) instr.rd
  rs1 := makeOptional (format = .R ∨ format = .S ∨ format = .B ∨ format = .I) instr.rs1
  rs2 := makeOptional (format = .R ∨ format = .S ∨ format = .B) instr.rs2
  imm :=
    match format with
    | .R => instr.iImmediate
    | .I => instr.iImmediate
    | .S => instr.sImmediate
    | .B => instr.bImmediate
    | .U => instr.uImmediate
    | .J => instr.jImmediate
    | .Invalid => instr.iImmediate
  funct7 := instr.funct7

end Kanagawa.RiscV
