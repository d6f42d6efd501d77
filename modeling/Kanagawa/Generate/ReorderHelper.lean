/-
  Kanagawa.Generate.ReorderHelper

  The operations that number the threads of a reordered region (`ir.cpp`).

  `ReorderHelper` emits an atomic block that gives each thread the next slot id,
  and, for loops that keep their threads in order by looping, another one at the
  end of each iteration that lets the thread with the exit slot id leave.  The
  operations are executed here on the global registers they share.
-/
import Kanagawa.IR.Globals

namespace Kanagawa.Generate

open Kanagawa.IR

/-! ## Slot ids -/

/-- `Log2RoundUp`; the most significant bit of zero is an exception. -/
def log2RoundUp (input : Nat) : Option Nat :=
  if input = 0 then none
  else if input &&& (input - 1) = 0 then some input.log2
  else some (input.log2 + 1)

/-- The width of a slot id in `EmitPreamble`. -/
def slotIdWidth (minFifoDepth maxThreadCountInsideFunction : Nat) : Option Nat :=
  (log2RoundUp (max minFifoDepth maxThreadCountInsideFunction)).map (· + 1)

/-- The depth of a reorder buffer in `SizeFifos`.  A shift by the width of the type or
    more is undefined. -/
def reorderBufferDepth (slotWidth : Nat) : Option Nat :=
  if slotWidth - 1 < 64 then some (1 <<< (slotWidth - 1)) else none

theorem le_two_pow_log2RoundUp {n k : Nat} (h : log2RoundUp n = some k) : n ≤ 2 ^ k := by
  simp only [log2RoundUp] at h
  split at h
  · cases h
  case isFalse hn =>
    have hlog : n < 2 ^ (n.log2 + 1) := (Nat.log2_lt hn).mp (Nat.lt_succ_self _)
    split at h
    case isTrue hand =>
      obtain rfl := Option.some.inj h
      -- Otherwise the bit of the logarithm is set in `n` and in `n - 1`
      by_contra hlt
      have hbit : n.testBit n.log2 = true := Nat.testBit_log2 hn
      have hbit' : (n - 1).testBit n.log2 = true := by
        have hpred : (n - 1).log2 = n.log2 := by
          have hlower : 2 ^ n.log2 ≤ n - 1 := by omega
          exact (Nat.log2_eq_iff (by omega)).mpr ⟨hlower, by omega⟩
        rw [← hpred]
        exact Nat.testBit_log2 (by have := Nat.two_pow_pos n.log2; omega)
      have hzero := congrArg (fun m => m.testBit n.log2) hand
      simp only [Nat.testBit_and, hbit, hbit', Bool.and_self, Nat.zero_testBit] at hzero
      cases hzero
    case isFalse hand =>
      obtain rfl := Option.some.inj h
      exact hlog.le

theorem log2RoundUp_le {n k j : Nat} (h : log2RoundUp n = some k) (hn : n ≤ 2 ^ j) : k ≤ j := by
  simp only [log2RoundUp] at h
  split at h
  · cases h
  case isFalse hn0 =>
    have hle : 2 ^ n.log2 ≤ n := Nat.log2_self_le hn0
    split at h
    · obtain rfl := Option.some.inj h
      exact (Nat.pow_le_pow_iff_right (by decide)).mp (hle.trans hn)
    case isFalse hand =>
      obtain rfl := Option.some.inj h
      -- A number that is not a power of two is above that of its logarithm
      have hlt : 2 ^ n.log2 < n := by
        refine lt_of_le_of_ne hle (fun heq => hand ?_)
        rw [← heq, Nat.and_two_pow_sub_one_eq_mod, Nat.mod_self]
      exact (Nat.pow_lt_pow_iff_right (by decide)).mp (hlt.trans_le hn)

/-- A buffer as deep as `SizeFifos` makes it has room for the threads of the function. -/
theorem le_two_pow_of_slotIdWidth {minFifoDepth maxThreads slotBits : Nat}
    (h : slotIdWidth minFifoDepth maxThreads = some slotBits) :
    0 < slotBits ∧ maxThreads ≤ 2 ^ (slotBits - 1) := by
  obtain ⟨k, hk, rfl⟩ := Option.map_eq_some_iff.mp h
  refine ⟨Nat.succ_pos k, ?_⟩
  exact (le_max_right minFifoDepth maxThreads).trans (le_two_pow_log2RoundUp hk)

/-! ## Registers -/

/-- The registers of `EmitPreamble` in a register table, with what `AllocateRegister`
    records for them. -/
structure SlotRegisters (table : RegisterTable) where
  slotBits : Nat
  localSlotReg : Nat
  globalSlotReg : Nat
  temporarySumReg : Nat
  slotBits_pos : 0 < slotBits
  desc_localSlotReg : table.desc localSlotReg = ⟨slotBits, .local, false, false, none⟩
  desc_globalSlotReg : table.desc globalSlotReg = ⟨slotBits, .global, false, false, some 0⟩
  desc_temporarySumReg : table.desc temporarySumReg = ⟨slotBits, .local, false, false, none⟩
  localSlotReg_ne : localSlotReg ≠ temporarySumReg

/-- The registers of a loop that keeps its threads in order. -/
structure LoopingRegisters (table : RegisterTable) extends SlotRegisters table where
  exitSlotReg : Nat
  bodyValidReg : Nat
  loopConditionReg : Nat
  notExitSlotReg : Nat
  notLoopConditionReg : Nat
  newExitSlotReg : Nat
  desc_exitSlotReg : table.desc exitSlotReg = ⟨slotBits, .global, false, false, some 0⟩
  desc_bodyValidReg : table.desc bodyValidReg = ⟨1, .local, false, false, none⟩
  desc_loopConditionReg : table.desc loopConditionReg = ⟨1, .local, false, false, none⟩
  desc_notExitSlotReg : table.desc notExitSlotReg = ⟨1, .local, false, false, none⟩
  desc_notLoopConditionReg : table.desc notLoopConditionReg = ⟨1, .local, false, false, none⟩
  desc_newExitSlotReg : table.desc newExitSlotReg = ⟨slotBits, .local, false, false, none⟩
  globals_ne : globalSlotReg ≠ exitSlotReg
  locals_nodup : [localSlotReg, temporarySumReg, bodyValidReg, loopConditionReg,
    notExitSlotReg, notLoopConditionReg, newExitSlotReg].Nodup

/-! ## Operations -/

/-- The block's description: `c_defaultAtomicBlockUpdateRate` is one. -/
def defaultAtomicBlock (chainIndex : Nat) : AtomicBlockDesc := ⟨.default, false, 1, chainIndex⟩

variable {table : RegisterTable}

/-- `EmitPreamble`. -/
def SlotRegisters.emitPreamble (regs : SlotRegisters table) (chainIndex : Nat) : List Operation :=
  [{ opcode := .beginAtomic (defaultAtomicBlock chainIndex) },
   -- Read the global ID value
   unsignedOperation .mov [.register regs.globalSlotReg] regs.localSlotReg,
   -- Increment the global ID; wrapping is desired
   unsignedOperation (.binaryOp .add) [.register regs.globalSlotReg, .literal ⟨1, 64⟩]
     regs.temporarySumReg,
   unsignedOperation (.writeGlobal false) [.register regs.temporarySumReg] regs.globalSlotReg,
   { opcode := .endAtomic (defaultAtomicBlock chainIndex) }]

namespace LoopingRegisters

variable (regs : LoopingRegisters table)

end LoopingRegisters

/-! ## Execution -/

section Exec

variable {W : Type} {other : Surroundings W} {σ : State (Globals W)}

theorem isLocal_of_desc {r : Nat} {d : RegisterDescription} (h : table.desc r = d) :
    table.isLocal r = d.type.isLocal := by
  rw [RegisterTable.isLocal, h]

theorem registerValue_local {r : Nat} (h : table.isLocal r = true) :
    registerValue table σ r = σ.locals r % 2 ^ (table.desc r).width := by
  rw [registerValue, if_pos h]

theorem registerValue_global {r : Nat} (h : table.isLocal r = false) :
    registerValue table σ r = σ.world.1 r % 2 ^ (table.desc r).width := by
  rw [registerValue, h]
  rfl

/-- The thread gets the slot id of the allocator, which moves on to the next one. -/
theorem exec_emitPreamble (regs : SlotRegisters table) (chainIndex : Nat) :
    execOperations (globalMachine table other) table σ (regs.emitPreamble chainIndex) =
      ⟨Function.update (Function.update σ.locals regs.localSlotReg
          (σ.world.1 regs.globalSlotReg % 2 ^ regs.slotBits)) regs.temporarySumReg
          ((σ.world.1 regs.globalSlotReg + 1) % 2 ^ regs.slotBits),
        Function.update σ.world.1 regs.globalSlotReg
          ((σ.world.1 regs.globalSlotReg + 1) % 2 ^ regs.slotBits), σ.world.2⟩ := by
  have hlocal := isLocal_of_desc regs.desc_localSlotReg
  have hsum := isLocal_of_desc regs.desc_temporarySumReg
  have hglobal := isLocal_of_desc regs.desc_globalSlotReg
  have hpos := regs.slotBits_pos
  simp only [execOperations, SlotRegisters.emitPreamble, List.foldl_cons, List.foldl_nil,
    execOperation_beginAtomic, execOperation_endAtomic]
  rw [execOperation_mov other _ hlocal rfl (by rw [regs.desc_globalSlotReg]; exact hpos)]
  rw [execOperation_binaryOp other _ _ hsum (by rw [regs.desc_temporarySumReg]; exact hpos)
    rfl rfl (by rw [regs.desc_globalSlotReg]; exact hpos) (by decide) (by decide) rfl]
  rw [execOperation_writeGlobal other hglobal _ rfl (by rw [regs.desc_temporarySumReg]; exact hpos)]
  simp only [registerValue_global hglobal, registerValue_local hsum, regs.desc_globalSlotReg,
    regs.desc_localSlotReg, regs.desc_temporarySumReg, Function.update_self, Nat.mod_mod,
    Nat.mod_add_mod]

/-- The value of a register of one bit. -/
def flag (table : RegisterTable) (σ : State (Globals W)) (r : Nat) : Bool :=
  registerValue table σ r == 1

variable (regs : LoopingRegisters table)

end Exec

end Kanagawa.Generate
