/-
  Kanagawa.Library.PipelinedMemory

  Single accesses to the memory of `data/memory/pipelined.k`.

  The memory comprises banks.  It holds as many elements as all of them, and an
  access to one address reads or writes that element and no other.
-/
import Kanagawa.Library.Basic

namespace Kanagawa.Library

/-- `pipelined_memory<T, Depth, Banks>`, where `Depth` is `banks * elementsPerBank`. -/
structure PipelinedMemory (T : Type) (banks elementsPerBank : Nat) where
  /-- `_memories` -/
  memories : Vector (Memory T elementsPerBank) banks

namespace PipelinedMemory

variable {T : Type} [Inhabited T] {banks elementsPerBank : Nat}

/-- `decompose_address`: the bank and the place in it. -/
def decomposeAddress (banks elementsPerBank addr : Nat) : Nat × Nat :=
  if 1 < banks then (addr / elementsPerBank, addr % elementsPerBank) else (0, addr)

/-- `address_to_bank_index` -/
def addressToBankIndex (banks elementsPerBank addr : Nat) : Nat :=
  (decomposeAddress banks elementsPerBank addr).1

/-- The element at a place of a bank. -/
def readBank (m : PipelinedMemory T banks elementsPerBank) (place : Nat × Nat) : T :=
  (m.memories[place.1]?.map (·.read place.2 default)).getD default

/-- The loop over the banks writes behind `i == decomposed_addr.first`. -/
def writeBank (m : PipelinedMemory T banks elementsPerBank) (place : Nat × Nat) (v : T) :
    PipelinedMemory T banks elementsPerBank :=
  ⟨m.memories.mapIdx fun i mem => if i = place.1 then mem.write place.2 v else mem⟩

/-- `read` -/
def read (m : PipelinedMemory T banks elementsPerBank) (addr : Nat) : T :=
  m.readBank (decomposeAddress banks elementsPerBank addr)

/-- `write` -/
def write (m : PipelinedMemory T banks elementsPerBank) (addr : Nat) (v : T) :
    PipelinedMemory T banks elementsPerBank :=
  m.writeBank (decomposeAddress banks elementsPerBank addr) v

/-- `atomically`: the old and the new value, and the memory. -/
def atomically (m : PipelinedMemory T banks elementsPerBank) (addr : Nat) (modify : T → T) :
    (T × T) × PipelinedMemory T banks elementsPerBank :=
  let old := m.read addr
  ((old, modify old), m.write addr (modify old))

/-! ## One element at a time -/

section Address

variable {addr addr' : Nat}

/-- An address in the memory is a place of one of the banks. -/
theorem decomposeAddress_lt (h : addr < banks * elementsPerBank) :
    (decomposeAddress banks elementsPerBank addr).1 < banks ∧
      (decomposeAddress banks elementsPerBank addr).2 < elementsPerBank := by
  have hpos : 0 < elementsPerBank := Nat.pos_of_ne_zero fun h0 => by simp [h0] at h
  unfold decomposeAddress
  split
  · exact ⟨(Nat.div_lt_iff_lt_mul hpos).mpr h, Nat.mod_lt _ hpos⟩
  · have hone : banks = 1 := by
      have : 0 < banks := Nat.pos_of_ne_zero fun h0 => by simp [h0] at h
      omega
    rw [hone, Nat.one_mul] at h
    exact ⟨by omega, h⟩

theorem decomposeAddress_inj
    (h : decomposeAddress banks elementsPerBank addr =
      decomposeAddress banks elementsPerBank addr') : addr = addr' := by
  unfold decomposeAddress at h
  split at h
  · rw [Prod.mk.injEq] at h
    rw [← Nat.div_add_mod addr elementsPerBank, h.1, h.2, Nat.div_add_mod]
  · rw [Prod.mk.injEq] at h
    exact h.2

end Address

variable (m : PipelinedMemory T banks elementsPerBank)

theorem readBank_writeBank_self {place : Nat × Nat} (h1 : place.1 < banks)
    (h2 : place.2 < elementsPerBank) (v : T) : (m.writeBank place v).readBank place = v := by
  simp only [readBank, writeBank, Vector.getElem?_eq_getElem h1, Vector.getElem_mapIdx,
    Option.map_some, if_true, Option.getD_some]
  exact Memory.read_write_self _ h2 v _

theorem readBank_writeBank_of_ne {place place' : Nat × Nat} (hne : place ≠ place') (v : T) :
    (m.writeBank place v).readBank place' = m.readBank place' := by
  simp only [readBank, writeBank, Vector.getElem?_mapIdx]
  cases hbank : m.memories[place'.1]? with
  | none => rfl
  | some mem =>
    simp only [Option.map_some, Option.getD_some]
    split
    · rename_i hfirst
      refine Memory.read_write_of_ne _ (fun hsecond => hne (Prod.ext hfirst.symm hsecond)) v _
    · rfl

theorem read_write_self {addr : Nat} (h : addr < banks * elementsPerBank) (v : T) :
    (m.write addr v).read addr = v :=
  m.readBank_writeBank_self (decomposeAddress_lt h).1 (decomposeAddress_lt h).2 v

theorem read_write_of_ne {addr addr' : Nat} (hne : addr ≠ addr') (v : T) :
    (m.write addr v).read addr' = m.read addr' :=
  m.readBank_writeBank_of_ne (fun h => hne (decomposeAddress_inj h)) v

end PipelinedMemory

end Kanagawa.Library
