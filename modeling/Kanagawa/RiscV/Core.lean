/-
  Kanagawa.RiscV.Core

  Executing one instruction in `processor/risc_v/internal/core.k`: `read`,
  `execute`, `load`, `multiply`, `write` and `store`, and the block of
  `pipeline` that commits a slot with them.

  The core is configured without memory-mapped IO, so that `is_mmio_addr` and
  `mmio_pending` are false throughout. What the source leaves undefined (a
  local that is not assigned, a row outside a memory) is an argument.
-/
import Kanagawa.Library.UnalignedMemory
import Kanagawa.RiscV.Decoder

namespace Kanagawa.RiscV

open Library

/-! ## Configurations -/

/-- The template arguments of `Core`, with its static assertions. -/
structure Config where
  harts : Nat
  imemLength : Nat
  dmemLength : Nat
  /-- In words. -/
  imemOrigin : Nat
  /-- In bytes. -/
  dmemOrigin : Nat
  enableMul : Bool
  hartsShareDmem : Bool
  noExceptionForCompressedEncoding : Bool
  harts_ne_zero : harts ≠ 0
  harts_pow : harts &&& (harts - 1) = 0
  dmemOrigin_aligned :
    dmemOrigin >>> Nat.clog 2 (if dmemLength = 0 then 1 else dmemLength) <<<
      Nat.clog 2 (if dmemLength = 0 then 1 else dmemLength) = dmemOrigin
  imemOrigin_aligned :
    imemOrigin >>> Nat.clog 2 imemLength <<< Nat.clog 2 imemLength = imemOrigin
  dmemLength_pow :
    (harts = 1 ∨ hartsShareDmem = true) ∨ dmemLength &&& (dmemLength - 1) = 0
  /-- `hart_address` is an address of `dmem_t` without a cast: with blocks of one byte, whose
  `dmem_addr_t` has a bit of its own, it would be too wide from four harts on. -/
  hartAddress_fits : (harts = 1 ∨ hartsShareDmem = true) ∨ harts ≤ 2 ∨ dmemLength ≠ 1

namespace Config

variable (cfg : Config)

/-- `SHARED_DMEM` -/
def sharedDmem : Prop := cfg.harts = 1 ∨ cfg.hartsShareDmem = true

instance : Decidable cfg.sharedDmem := inferInstanceAs (Decidable (_ ∨ _))

/-- `DMEM_TCM_SIZE` -/
def dmemTcmSize : Nat :=
  if cfg.sharedDmem then cfg.dmemLength else cfg.dmemLength <<< Nat.clog 2 cfg.harts

/-- The bytes of `dmem_t`: at least a word. -/
def dmemSize : Nat := if 4 < cfg.dmemTcmSize then cfg.dmemTcmSize else 4

/-- The width of `imem_addr_t`. -/
def imemWidth : Nat := indexWidth cfg.imemLength

/-- The width of `dmem_addr_t`. -/
def dmemWidth : Nat := indexWidth cfg.dmemLength

/-- `imem_addr_t` -/
abbrev ImemAddr := BitVec cfg.imemWidth

/-- `hart_index_t`, of which only the harts are used -/
abbrev HartIndex := Fin cfg.harts

/-- `dmem_t` -/
abbrev Dmem := UnalignedReadUnalignedWriteMemory Byte 4 cfg.dmemSize

end Config

/-- `addr_in_range<ORIGIN, LENGTH>` -/
def addrInRange (origin length addr : Nat) : Prop :=
  length ≠ 0 ∧ origin ≤ addr ∧ addr < origin + length

instance (origin length addr : Nat) : Decidable (addrInRange origin length addr) :=
  inferInstanceAs (Decidable (_ ∧ _))

/-- `high_order_bit` -/
def highOrderBit {w : Nat} (x : BitVec w) : Bool := x.getLsbD (w - 1)

/-! ## State -/

/-- The register file, with an entry for each `concat(hid, reg)`. -/
abbrev RegisterFile := Nat → Word

namespace RegisterFile

variable (rf : RegisterFile)

/-- `register_get` -/
def get (hid : Nat) (reg : Reg) : Word := rf (hid * 32 + reg.toNat)

/-- `register_set` -/
def set (hid : Nat) (reg : Reg) (value : Word) : RegisterFile :=
  Function.update rf (hid * 32 + reg.toNat) value

variable {rf}

end RegisterFile

/-- What the program sees: the registers, the data memory and the retired instructions. -/
structure Architectural (cfg : Config) where
  registerFile : RegisterFile
  dmem : cfg.Dmem
  instret : cfg.HartIndex → Word

/-- What is not determined by the source: the value of a local before its first assignment, and
what a bank of `dmem` gives outside its rows. -/
structure Undefined where
  value : Word
  bank : Nat → Byte

/-- What the execution environment provides: the custom instructions and the cycle counter. -/
structure Environment (cfg : Config) where
  customDecode : RVG → Format
  customExecute : cfg.HartIndex → RVG → BitVec 3 → Word → Word → Word → BitVec 7 → Word
  cycles : BitVec 64

variable {cfg : Config}

/-! ## Data memory -/

/-- The word of four bytes, the first one lowest. -/
def wordOfBytes (b : Nat → Byte) : Word := b 3 ++ b 2 ++ b 1 ++ b 0

/-- A byte of a word. -/
def byteOfWord (w : Word) (k : Nat) : Byte := w.extractLsb' (8 * k) 8

namespace Config

/-- `hart_address` -/
def hartAddress (cfg : Config) (hid : cfg.HartIndex) (addr : Nat) : Nat :=
  if cfg.sharedDmem then addr else hid * 2 ^ cfg.dmemWidth + addr

/-- `static_cast` of an address to `dmem_addr_t` -/
def dmemAddr (cfg : Config) (addr : Word) : Nat := addr.toNat % 2 ^ cfg.dmemWidth

end Config

/-- `dmem_read` -/
def dmemRead (undefined : Undefined) (dmem : cfg.Dmem) (hid : cfg.HartIndex) (addr : Nat) : Word :=
  wordOfBytes (element (dmem.read 1 (cfg.hartAddress hid addr) undefined.bank))

/-- `dmem_write` -/
def dmemWrite (dmem : cfg.Dmem) (hid : cfg.HartIndex) (addr : Nat) (value : Word) (size : Nat) :
    cfg.Dmem :=
  dmem.write 1 (cfg.hartAddress hid addr) (Vector.ofFn fun k : Fin 4 => byteOfWord value k) size

/-! ## Slots -/

/-- What `fetch` gives for a slot. -/
structure Current (cfg : Config) where
  hid : cfg.HartIndex
  pc : cfg.ImemAddr
  nextPc : cfg.ImemAddr
  predictedPc : cfg.ImemAddr
  instr : Instr
  recoveredFromPipelineFlush : Bool := false

/-- `Operands` -/
structure Operands where
  op1 : Word
  op2 : Word
  rs2 : Word
  add1 : Word
  sub1 : BitVec 33
  sub2 : BitVec 33

/-- `Results`, as `execute` returns them. -/
structure Results (cfg : Config) where
  dataAddr : Word
  instrAddr : Word
  compute : Word
  mul : Word
  csr : Word
  nextPc : cfg.ImemAddr
  branchTaken : Bool
  invalidNextPc : Bool

/-- The address of a word of instruction memory: `(pc | IMEM_ORIGIN) << 2`. -/
def Config.pcAddress (cfg : Config) (pc : cfg.ImemAddr) : Word :=
  BitVec.ofNat 32 ((pc.toNat ||| cfg.imemOrigin) <<< 2)

/-- `decode` -/
def decode (env : Environment cfg) (current : Current cfg) : Decoded :=
  decodeInstr cfg.enableMul cfg.noExceptionForCompressedEncoding current.instr env.customDecode

/-- `read` -/
def read (undefined : Undefined) (rf : RegisterFile) (current : Current cfg) (decoded : Decoded) :
    Operands :=
  let op1 := (decoded.format.rs1.map (rf.get current.hid)).getD undefined.value
  let rs2 := (decoded.format.rs2.map (rf.get current.hid)).getD undefined.value
  let op2 := if decoded.format.rs2.isSome then rs2 else decoded.format.imm
  { op1, rs2, op2
    sub1 := if decoded.unsignedComparison then op1.setWidth 33 else op1.signExtend 33
    sub2 := if decoded.unsignedComparison then op2.setWidth 33 else op2.signExtend 33
    add1 := if decoded.pcPlus then cfg.pcAddress current.pc else op1 }

/-- `load` -/
def load (undefined : Undefined) (dmem : cfg.Dmem) (current : Current cfg) (decoded : Decoded)
    (addr : Word) : Word :=
  let value := dmemRead undefined dmem current.hid (cfg.dmemAddr addr)
  let b := if decoded.instr.memSignExtend then (value.setWidth 8).signExtend 32
    else (value.setWidth 8).setWidth 32
  let hw := if decoded.instr.memSignExtend then (value.setWidth 16).signExtend 32
    else (value.setWidth 16).setWidth 32
  match decoded.instr.memSize.toNat with
  | 0 => b
  | 1 => hw
  | _ => value

/-- `multiply` -/
def multiply (decoded : Decoded) (operands : Operands) : Word :=
  let op1 : Int :=
    if decoded.instr.mulOp1Unsigned then operands.op1.toNat else operands.op1.toInt
  let op2 : Int :=
    if decoded.instr.mulOp2Unsigned then operands.rs2.toNat else operands.rs2.toInt
  let mul := op1 * op2
  BitVec.ofInt 32 (if decoded.instr.mulUpper then mul >>> (32 : Nat) else mul)

/-- `results.compute` of `execute` -/
def compute (decoded : Decoded) (operands : Operands) (customResult : Word) : Word :=
  let sub : Int := operands.sub1.toInt - operands.sub2.toInt
  let lt : Bool := sub < 0
  let amount := operands.op2.toNat % 2 ^ 5
  let logical :=
    match decoded.instr.baseLogical.toNat with
    | 0 => operands.op1 ^^^ operands.op2
    | 1 => operands.op2
    | 2 => operands.op1 ||| operands.op2
    | _ => operands.op1 &&& operands.op2
  let shifted : Int :=
    (if decoded.instr.baseSra then operands.op1.toInt else operands.op1.toNat) >>> amount
  match decoded.instr.baseOp.toNat with
  | 0 => operands.add1 + operands.op2
  | 1 => operands.op1 <<< amount
  | 2 => (BitVec.ofBool lt).setWidth 32
  | 3 => (BitVec.ofBool lt).setWidth 32
  | 4 => BitVec.ofInt 32 sub
  | 5 => BitVec.ofInt 32 shifted
  | 6 => customResult
  | _ => logical

/-- `condition` of `execute` -/
def condition (decoded : Decoded) (operands : Operands) : Bool :=
  let lt : Bool := operands.sub1.toInt - operands.sub2.toInt < 0
  match decoded.instr.controlCondition.toNat with
  | 0 => operands.op1 = operands.op2
  | 1 => operands.op1 ≠ operands.op2
  | 2 => lt
  | _ => !lt

/-- `results.csr` of `execute` -/
def csr (env : Environment cfg) (instret : Word) (hid : cfg.HartIndex) (decoded : Decoded) : Word :=
  match (decoded.instr.systemOp.setWidth 2).toNat with
  | 0 => env.cycles.setWidth 32
  | 1 => instret
  | 2 => (env.cycles >>> 32).setWidth 32
  | _ => BitVec.ofNat 32 hid

/-- `execute` -/
def execute (env : Environment cfg) (instret : Word) (current : Current cfg) (decoded : Decoded)
    (operands : Operands) (customResult : Word) : Results cfg :=
  let branchTaken :=
    decoded.control && (decoded.instr.controlJump || condition decoded operands)
  let instrAddr := operands.add1 + decoded.format.imm
  { dataAddr := operands.op1 + decoded.format.imm
    instrAddr
    compute := compute decoded operands customResult
    mul := multiply decoded operands
    csr := csr env instret current.hid decoded
    branchTaken
    -- A target whose bit 1 is set is misaligned; bit 0 is ignored, as JALR requires.
    invalidNextPc :=
      if branchTaken then
        instrAddr.getLsbD 1 = true ∨
          ¬addrInRange cfg.imemOrigin cfg.imemLength (instrAddr >>> 2).toNat
      else highOrderBit current.pc = true ∧ highOrderBit current.nextPc = false
    nextPc :=
      if branchTaken then (instrAddr >>> 2).setWidth cfg.imemWidth else current.nextPc }

/-- `write`: the register and the value that it is given -/
def write (current : Current cfg) (decoded : Decoded) (loaded : Word) (results : Results cfg) :
    Option (Reg × Word) :=
  let value :=
    if decoded.mul then results.mul
    else
      match decoded.kind with
      | .compute => results.compute
      | .control => cfg.pcAddress current.nextPc
      | .memory => loaded
      | .system => results.csr
  decoded.format.rd.map fun rd => (rd, value)

/-- `store` -/
def store (dmem : cfg.Dmem) (current : Current cfg) (decoded : Decoded) (operands : Operands)
    (results : Results cfg) : cfg.Dmem :=
  if decoded.store then
    let bytes := (1 <<< decoded.instr.memSize.toNat) % 2 ^ countWidth 4
    dmemWrite dmem current.hid (cfg.dmemAddr results.dataAddr) operands.rs2 bytes
  else dmem

/-- The register file after a `write`. -/
def RegisterFile.apply (rf : RegisterFile) (hid : Nat) : Option (Reg × Word) → RegisterFile
  | some (rd, value) => rf.set hid rd value
  | none => rf

/-! ## Committing a slot -/

/-- What a committable slot does. -/
structure Committed (cfg : Config) where
  decoded : Decoded
  results : Results cfg
  trap : Bool
  /-- The call of `register_set`. -/
  written : Option (Reg × Word)
  /-- Whether `dmem_write` is called. -/
  stores : Bool
  state : Architectural cfg

/-- The traps that the system is told of. -/
inductive Trap where
  | invalidInstructionAddress | accessFault | illegalInstruction | ecall | ebreak
deriving DecidableEq, Repr

section Slot

variable (env : Environment cfg) (undefined : Undefined) (state : Architectural cfg)
  (current : Current cfg)

/-- `operands` of a slot -/
def operandsOf : Operands := read undefined state.registerFile current (decode env current)

/-- `results` of a slot, with the custom instruction executed as the environment does it -/
def resultsOf : Results cfg :=
  let decoded := decode env current
  let operands := operandsOf env undefined state current
  let custom := env.customExecute current.hid decoded.majorOpcode decoded.minorOpcode operands.op1
    operands.op2 decoded.format.imm decoded.format.funct7
  execute env (state.instret current.hid) current decoded operands custom

/-- `loaded` of a slot -/
def loadedOf : Word :=
  let decoded := decode env current
  if decoded.kind = .memory ∧ decoded.store = false then
    load undefined state.dmem current decoded (resultsOf env undefined state current).dataAddr
  else undefined.value

/-- The block of `pipeline` for a slot of a hart whose `commit` is set. -/
def commitSlot : Committed cfg :=
  let decoded := decode env current
  let results := resultsOf env undefined state current
  let isDmemAddr := addrInRange cfg.dmemOrigin cfg.dmemLength results.dataAddr.toNat
  let instret := Function.update state.instret current.hid (state.instret current.hid + 1)
  if decoded.illegal = true ∨ decoded.kind = .memory ∧ ¬isDmemAddr then
    { decoded, results, trap := true, written := none, stores := false
      state := { state with instret } }
  else
    let written := write current decoded (loadedOf env undefined state current) results
    { decoded, results, trap := decoded.trap || results.invalidNextPc, written
      stores := decoded.store
      state :=
        { registerFile := state.registerFile.apply current.hid written
          dmem := store state.dmem current decoded (operandsOf env undefined state current) results
          instret } }

end Slot

/-- The trap that `pipeline` reports for a slot whose `results.trap` is set. -/
def Committed.cause (c : Committed cfg) : Trap :=
  if c.decoded.illegal then .illegalInstruction
  else if c.decoded.trap then
    if c.decoded.instr.systemOp = SystemOp.ecall.bits then .ecall else .ebreak
  else if c.results.invalidNextPc then .invalidInstructionAddress
  else .accessFault

/-! ## A small core -/

/-- One hart with sixteen words of instruction memory, 64 bytes of data memory and the
multiplications. -/
def smallConfig : Config where
  harts := 1
  imemLength := 16
  dmemLength := 64
  imemOrigin := 0
  dmemOrigin := 64
  enableMul := true
  hartsShareDmem := false
  noExceptionForCompressedEncoding := false
  harts_ne_zero := by decide
  harts_pow := by decide
  dmemOrigin_aligned := by decide
  imemOrigin_aligned := by decide
  dmemLength_pow := by decide
  hartAddress_fits := by decide

/-- The default callbacks. -/
def smallEnvironment : Environment smallConfig where
  customDecode _ := .Invalid
  customExecute _ _ _ _ _ _ _ := 0
  cycles := 0

/-- A memory and registers that are all zero. -/
def smallState : Architectural smallConfig where
  registerFile _ := 0
  dmem := ⟨fun _ => Vector.replicate _ 0⟩
  instret _ := 0

end Kanagawa.RiscV
