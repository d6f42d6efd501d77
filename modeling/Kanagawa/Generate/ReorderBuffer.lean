/-
  Kanagawa.Generate.ReorderBuffer

  Slot ids never collide in a reorder buffer.

  Threads take the slot ids that `EmitPreamble` allocates into a region where
  they overtake one another, and wait in the buffer behind it
  (`reorder_buffer.sv`).  The low bits of a slot id are an entry of the buffer.
  The flag of an entry changes when a thread is written to it, so that the high
  bit of the read pointer tells whether the thread it waits for is there.
-/
import Kanagawa.Generate.ReorderHelper
import Kanagawa.Lib.Tickets

namespace Kanagawa.Generate

open Kanagawa.IR Kanagawa.Tickets

/-! ## Runs -/

/-- The entry of a slot id: all bits but the high one. -/
def slotEntry (slotBits slot : Nat) : Nat := slot % 2 ^ (slotBits - 1)

/-- The high bit of a slot id. -/
def slotFlag (slotBits slot : Nat) : Bool := slot.testBit (slotBits - 1)

/-- The threads of a reordered region and the buffer behind it. -/
structure ReorderState (W : Type) where
  world : Globals W
  /-- `slot_flag_memory` -/
  flags : Nat → Bool
  /-- `read_pointer_ff` -/
  readPointer : Nat
  /-- Slot ids between allocation and removal, in the order of allocation. -/
  inFlight : List Nat
  /-- Those of them that are in the buffer. -/
  arrived : List Nat
  /-- Every slot id allocated so far, in the order of allocation. -/
  history : List Nat

section Run

variable {W : Type} {table : RegisterTable} (other : Surroundings W)
  (regs : SlotRegisters table) (maxThreads : Nat)

/-- The start: the allocator has its initial value, and the buffer has set all flags. -/
def ReorderState.initial (world : Globals W) : ReorderState W where
  world := (Function.update world.1 regs.globalSlotReg 0, world.2)
  flags _ := true
  readPointer := 0
  inFlight := []
  arrived := []
  history := []

/-- The thread state after `EmitPreamble` has run on a thread. -/
def allocateSlot (chainIndex : Nat) (locals : Nat → Nat) (world : Globals W) : State (Globals W) :=
  execOperations (globalMachine table other) table ⟨locals, world⟩ (regs.emitPreamble chainIndex)

/-- One step of the threads, of the buffer or of the rest of the program. -/
inductive ReorderStep : ReorderState W → ReorderState W → Prop where
  | allocate (s : ReorderState W) (chainIndex : Nat) (locals : Nat → Nat)
      (hroom : s.inFlight.length < maxThreads) :
      ReorderStep s
        (let σ := allocateSlot other regs chainIndex locals s.world
         let slot := registerValue table σ regs.localSlotReg
         { s with
           world := σ.world
           inFlight := s.inFlight ++ [slot]
           history := s.history ++ [slot] })
  | external (s : ReorderState W) (world : Globals W)
      (hkeep : world.1 regs.globalSlotReg = s.world.1 regs.globalSlotReg) :
      ReorderStep s { s with world }
  -- A thread reaches the buffer, at any time and in any order
  | write (s : ReorderState W) (slot : Nat) (hslot : slot ∈ s.inFlight)
      (hnew : slot ∉ s.arrived) :
      ReorderStep s
        { s with
          flags := Function.update s.flags (slotEntry regs.slotBits slot)
            (slotFlag regs.slotBits slot)
          arrived := slot :: s.arrived }
  -- The flag at the read pointer has the ready value
  | release (s : ReorderState W)
      (hready : s.flags (slotEntry regs.slotBits s.readPointer) =
        slotFlag regs.slotBits s.readPointer) :
      ReorderStep s
        { s with
          readPointer := (s.readPointer + 1) % 2 ^ regs.slotBits
          inFlight := s.inFlight.erase s.readPointer
          arrived := s.arrived.erase s.readPointer }

/-- The states of all runs. -/
def ReorderReachable (s : ReorderState W) : Prop :=
  ∃ world, Relation.ReflTransGen (ReorderStep other regs maxThreads)
    (ReorderState.initial regs world) s

/-! ## Invariant -/

/-- The counters as if they never wrapped: `served` slots have been removed and the next
    `count` ones are in flight. -/
structure ReorderInvariant (served count : Nat) (s : ReorderState W) : Prop where
  count_le : count ≤ maxThreads
  readPointer : s.readPointer = served % 2 ^ regs.slotBits
  inFlight : s.inFlight = tickets (2 ^ regs.slotBits) served count
  history : s.history = tickets (2 ^ regs.slotBits) 0 (served + count)
  allocator : s.world.1 regs.globalSlotReg % 2 ^ regs.slotBits =
    (served + count) % 2 ^ regs.slotBits
  arrived_subset : s.arrived ⊆ s.inFlight
  arrived_nodup : s.arrived.Nodup
  /-- The flag of an entry is the high bit of the next slot id that uses it once that one
      has arrived, and the other value before. -/
  flags : ∀ i < 2 ^ (regs.slotBits - 1),
    s.flags ((served + i) % 2 ^ (regs.slotBits - 1)) =
      ((served + i).testBit (regs.slotBits - 1) ==
        decide ((served + i) % 2 ^ regs.slotBits ∈ s.arrived))

end Run

section Invariant

variable {W : Type} {table : RegisterTable} {other : Surroundings W}
  {regs : SlotRegisters table} {maxThreads served count : Nat} {s : ReorderState W}

theorem two_pow_slotBits : 2 ^ regs.slotBits = 2 * 2 ^ (regs.slotBits - 1) := by
  rw [← Nat.pow_succ', Nat.succ_eq_add_one, Nat.sub_add_cancel regs.slotBits_pos]

theorem half_dvd : 2 ^ (regs.slotBits - 1) ∣ 2 ^ regs.slotBits :=
  Nat.pow_dvd_pow 2 (Nat.sub_le _ _)

theorem slotEntry_mod (x : Nat) :
    slotEntry regs.slotBits (x % 2 ^ regs.slotBits) = x % 2 ^ (regs.slotBits - 1) :=
  Nat.mod_mod_of_dvd x half_dvd

theorem slotFlag_mod (x : Nat) :
    slotFlag regs.slotBits (x % 2 ^ regs.slotBits) = x.testBit (regs.slotBits - 1) := by
  have hlt : regs.slotBits - 1 < regs.slotBits := Nat.sub_one_lt_of_lt regs.slotBits_pos
  simp only [slotFlag, Nat.testBit_mod_two_pow, hlt, decide_true, Bool.true_and]

/-- Slot ids of one half of the counter are told apart by their entries. -/
theorem ne_of_half (served : Nat) {i j : Nat} (hi : i < 2 ^ (regs.slotBits - 1))
    (hj : j < 2 ^ (regs.slotBits - 1)) (hij : i ≠ j) :
    (served + i) % 2 ^ (regs.slotBits - 1) ≠ (served + j) % 2 ^ (regs.slotBits - 1) ∧
      (served + i) % 2 ^ regs.slotBits ≠ (served + j) % 2 ^ regs.slotBits := by
  have hentry : (served + i) % 2 ^ (regs.slotBits - 1) ≠ (served + j) % 2 ^ (regs.slotBits - 1) :=
    fun h => hij (eq_of_mod_eq hi hj h)
  refine ⟨hentry, fun h => hentry ?_⟩
  rw [← slotEntry_mod, h, slotEntry_mod]

theorem reorderInvariant_initial (world : Globals W) :
    ReorderInvariant regs maxThreads 0 0 (ReorderState.initial regs world) where
  count_le := Nat.zero_le _
  readPointer := (Nat.zero_mod _).symm
  inFlight := rfl
  history := rfl
  allocator := by simp only [ReorderState.initial, Function.update_self]
  arrived_subset := List.nil_subset _
  arrived_nodup := List.nodup_nil
  flags := by
    intro i hi
    have hbit : i.testBit (regs.slotBits - 1) = false := Nat.testBit_eq_false_of_lt hi
    simp [ReorderState.initial, hbit]

namespace ReorderInvariant

theorem allocate (h : ReorderInvariant regs maxThreads served count s) (chainIndex : Nat)
    (locals : Nat → Nat) (hroom : s.inFlight.length < maxThreads) :
    let σ := allocateSlot other regs chainIndex locals s.world
    let slot := registerValue table σ regs.localSlotReg
    ReorderInvariant regs maxThreads served (count + 1)
      { s with
        world := σ.world
        inFlight := s.inFlight ++ [slot]
        history := s.history ++ [slot] } := by
  intro σ slot
  have hσ : σ = ⟨_, _, _⟩ := exec_emitPreamble regs chainIndex
  have hslot : slot = (served + count) % 2 ^ regs.slotBits := by
    rw [← h.allocator]
    simp only [slot, registerValue_local (isLocal_of_desc regs.desc_localSlotReg), hσ,
      Function.update_of_ne regs.localSlotReg_ne, Function.update_self, regs.desc_localSlotReg,
      Nat.mod_mod]
  have hnext : σ.world.1 regs.globalSlotReg % 2 ^ regs.slotBits =
      (served + (count + 1)) % 2 ^ regs.slotBits := by
    simp only [hσ, Function.update_self, Nat.mod_mod]
    rw [← Nat.mod_add_mod, h.allocator, Nat.mod_add_mod, Nat.add_assoc]
  refine { h with count_le := ?_, inFlight := ?_, history := ?_, allocator := hnext,
                  arrived_subset := ?_ }
  · rwa [h.inFlight, length_tickets] at hroom
  · rw [tickets_append_one, ← hslot, ← h.inFlight]
  · change s.history ++ [slot] = tickets _ 0 (served + count + 1)
    rw [tickets_append_one, Nat.zero_add, ← hslot, ← h.history]
  · exact fun x hx => List.mem_append_left _ (h.arrived_subset hx)

theorem external (h : ReorderInvariant regs maxThreads served count s) {world : Globals W}
    (hkeep : world.1 regs.globalSlotReg = s.world.1 regs.globalSlotReg) :
    ReorderInvariant regs maxThreads served count { s with world } :=
  { h with allocator := by rw [← h.allocator, ← hkeep] }

theorem write (h : ReorderInvariant regs maxThreads served count s)
    (hmax : maxThreads ≤ 2 ^ (regs.slotBits - 1)) {slot : Nat} (hslot : slot ∈ s.inFlight)
    (hnew : slot ∉ s.arrived) :
    ReorderInvariant regs maxThreads served count
      { s with
        flags := Function.update s.flags (slotEntry regs.slotBits slot)
          (slotFlag regs.slotBits slot)
        arrived := slot :: s.arrived } := by
  have hcount := h.count_le.trans hmax
  refine { h with arrived_subset := ?_, arrived_nodup := ?_, flags := ?_ }
  · exact List.cons_subset.mpr ⟨hslot, h.arrived_subset⟩
  · exact List.nodup_cons.mpr ⟨hnew, h.arrived_nodup⟩
  · intro i hi
    rw [h.inFlight] at hslot
    obtain ⟨j, hj, rfl⟩ := mem_tickets.mp hslot
    rw [slotEntry_mod, slotFlag_mod]
    by_cases hij : i = j
    · subst hij
      simp
    · obtain ⟨hentry, hne⟩ := ne_of_half served hi (hj.trans_le hcount) hij
      simp only [Function.update_of_ne hentry, List.mem_cons, hne, false_or]
      exact h.flags i hi

/-- The flag at the read pointer is ready exactly if the oldest thread has arrived. -/
theorem ready_iff (h : ReorderInvariant regs maxThreads served count s) :
    s.flags (slotEntry regs.slotBits s.readPointer) = slotFlag regs.slotBits s.readPointer ↔
      s.readPointer ∈ s.arrived := by
  have hflag := h.flags 0 (Nat.two_pow_pos _)
  rw [Nat.add_zero] at hflag
  rw [h.readPointer, slotEntry_mod, slotFlag_mod, hflag]
  cases served.testBit (regs.slotBits - 1) <;> simp

theorem release (h : ReorderInvariant regs maxThreads served count s)
    (hmax : maxThreads ≤ 2 ^ (regs.slotBits - 1))
    (hready : s.flags (slotEntry regs.slotBits s.readPointer) =
      slotFlag regs.slotBits s.readPointer) :
    ReorderInvariant regs maxThreads (served + 1) (count - 1)
      { s with
        readPointer := (s.readPointer + 1) % 2 ^ regs.slotBits
        inFlight := s.inFlight.erase s.readPointer
        arrived := s.arrived.erase s.readPointer } := by
  have hmem := h.ready_iff.mp hready
  have hcount := h.count_le.trans hmax
  -- The oldest thread is the one that leaves
  obtain ⟨n, rfl⟩ : ∃ n, count = n + 1 := by
    have hin := h.arrived_subset hmem
    rw [h.inFlight] at hin
    obtain ⟨j, hj, -⟩ := mem_tickets.mp hin
    exact ⟨count - 1, by omega⟩
  have htail : s.inFlight.erase s.readPointer = tickets (2 ^ regs.slotBits) (served + 1) n := by
    rw [h.inFlight, tickets_cons, h.readPointer, List.erase_cons_head]
  rw [Nat.add_sub_cancel]
  refine { count_le := (Nat.le_succ n).trans h.count_le, readPointer := ?_, inFlight := htail,
           history := ?_, allocator := ?_, arrived_subset := ?_,
           arrived_nodup := h.arrived_nodup.erase _, flags := ?_ }
  · rw [h.readPointer, Nat.mod_add_mod]
  · rw [h.history]
    congr 1
    omega
  · rw [h.allocator]
    congr 1
    omega
  · intro x hx
    have hx' := (List.Nodup.mem_erase_iff h.arrived_nodup).mp hx
    have hin := h.arrived_subset hx'.2
    exact (List.mem_erase_of_ne hx'.1).mpr hin
  · intro i hi
    have hshift : served + 1 + i = served + (i + 1) := by omega
    have herase : ∀ x, x ≠ s.readPointer → (x ∈ s.arrived.erase s.readPointer ↔ x ∈ s.arrived) :=
      fun x hx => List.mem_erase_of_ne hx
    rw [hshift]
    by_cases hlast : i + 1 < 2 ^ (regs.slotBits - 1)
    · have hne : (served + (i + 1)) % 2 ^ regs.slotBits ≠ s.readPointer := by
        rw [h.readPointer]
        exact (ne_of_half served hlast (Nat.two_pow_pos _) (Nat.succ_ne_zero i)).2
      simp only [herase _ hne]
      exact h.flags (i + 1) hlast
    · -- The entry of the thread that leaves, for its next use
      have hlen : i + 1 = 2 ^ (regs.slotBits - 1) := by omega
      have hnot : (served + (i + 1)) % 2 ^ regs.slotBits ∉ s.arrived.erase s.readPointer := by
        intro hin
        have hin' := h.arrived_subset (List.erase_subset hin)
        rw [h.inFlight] at hin'
        obtain ⟨j, hj, heq⟩ := mem_tickets.mp hin'
        have htwo : 2 ^ regs.slotBits = 2 * 2 ^ (regs.slotBits - 1) := two_pow_slotBits
        have : j = i + 1 := eq_of_mod_eq (by omega) (by omega) heq
        omega
      rw [hlen] at hnot ⊢
      have hflip : (served + 2 ^ (regs.slotBits - 1)).testBit (regs.slotBits - 1) =
          !served.testBit (regs.slotBits - 1) := by
        rw [Nat.add_comm, Nat.testBit_two_pow_add_eq]
      have hentry : s.flags (served % 2 ^ (regs.slotBits - 1)) =
          served.testBit (regs.slotBits - 1) := by
        rw [← slotEntry_mod, ← slotFlag_mod, ← h.readPointer]
        exact hready
      simp only [Nat.add_mod_right, hentry, hflip, hnot, decide_false]
      cases served.testBit (regs.slotBits - 1) <;> rfl

/-- Every step keeps the invariant. -/
theorem step {s' : ReorderState W} (h : ReorderInvariant regs maxThreads served count s)
    (hmax : maxThreads ≤ 2 ^ (regs.slotBits - 1)) (hstep : ReorderStep other regs maxThreads s s') :
    ∃ served' count', ReorderInvariant regs maxThreads served' count' s' := by
  cases hstep with
  | allocate chainIndex locals hroom => exact ⟨served, count + 1, h.allocate chainIndex locals hroom⟩
  | external world hkeep => exact ⟨served, count, h.external hkeep⟩
  | write slot hslot hnew => exact ⟨served, count, h.write hmax hslot hnew⟩
  | release hready => exact ⟨served + 1, count - 1, h.release hmax hready⟩

end ReorderInvariant

/-- The invariant holds in every run. -/
theorem reorderInvariant_of_reachable (hmax : maxThreads ≤ 2 ^ (regs.slotBits - 1))
    (h : ReorderReachable other regs maxThreads s) :
    ∃ served count, ReorderInvariant regs maxThreads served count s := by
  obtain ⟨world, hrun⟩ := h
  induction hrun with
  | refl => exact ⟨0, 0, reorderInvariant_initial world⟩
  | tail _ hstep ih =>
    obtain ⟨served, count, hinv⟩ := ih
    exact hinv.step hmax hstep

/-! ## Results -/

/-- Slot ids of the same entry follow one another at the depth of the buffer, and their
    high bits differ. -/
theorem slotFlag_ne_of_consecutive {i j : Nat} (hij : i < j)
    (hentry : slotEntry regs.slotBits (i % 2 ^ regs.slotBits) =
      slotEntry regs.slotBits (j % 2 ^ regs.slotBits))
    (hbetween : ∀ k, i < k → k < j → slotEntry regs.slotBits (k % 2 ^ regs.slotBits) ≠
      slotEntry regs.slotBits (i % 2 ^ regs.slotBits)) :
    slotFlag regs.slotBits (i % 2 ^ regs.slotBits) ≠
      slotFlag regs.slotBits (j % 2 ^ regs.slotBits) := by
  simp only [slotEntry_mod] at hentry hbetween
  obtain ⟨q, hq⟩ := (Nat.modEq_iff_dvd' hij.le).mp hentry
  have hpos : 0 < 2 ^ (regs.slotBits - 1) := Nat.two_pow_pos _
  have hq0 : q ≠ 0 := by
    rintro rfl
    omega
  -- A slot id in between would have the same entry
  have hq1 : q < 2 := by
    by_contra hge
    have hle : 2 ^ (regs.slotBits - 1) * 2 ≤ 2 ^ (regs.slotBits - 1) * q :=
      Nat.mul_le_mul_left _ (by omega)
    exact hbetween (i + 2 ^ (regs.slotBits - 1)) (by omega) (by omega) (Nat.add_mod_right _ _)
  obtain rfl : q = 1 := by omega
  have hj' : j = 2 ^ (regs.slotBits - 1) + i := by omega
  rw [slotFlag_mod, slotFlag_mod, hj', Nat.testBit_two_pow_add_eq]
  cases i.testBit (regs.slotBits - 1) <;> decide

/-- Slot ids in flight have different entries, the buffer is deep enough for them, the
    high bit changes from one use of an entry to the next, and the buffer releases
    exactly the oldest thread, once it has arrived. -/
theorem reorder_slots_never_collide {minFifoDepth : Nat}
    (hwidth : slotIdWidth minFifoDepth maxThreads = some regs.slotBits)
    (h : ReorderReachable other regs maxThreads s) :
    s.inFlight.Pairwise
      (fun a b => slotEntry regs.slotBits a ≠ slotEntry regs.slotBits b) ∧
    (∀ depth, reorderBufferDepth regs.slotBits = some depth → s.inFlight.length ≤ depth) ∧
    (max minFifoDepth maxThreads ≤ 2 ^ 63 → (reorderBufferDepth regs.slotBits).isSome) ∧
    (∀ i j a b : Nat, i < j → s.history[i]? = some a → s.history[j]? = some b →
      slotEntry regs.slotBits a = slotEntry regs.slotBits b →
      (∀ k c : Nat, i < k → k < j → s.history[k]? = some c →
        slotEntry regs.slotBits c ≠ slotEntry regs.slotBits a) →
      slotFlag regs.slotBits a ≠ slotFlag regs.slotBits b) ∧
    (s.flags (slotEntry regs.slotBits s.readPointer) = slotFlag regs.slotBits s.readPointer ↔
      s.inFlight.head? = some s.readPointer ∧ s.readPointer ∈ s.arrived) := by
  obtain ⟨-, hmax⟩ := le_two_pow_of_slotIdWidth hwidth
  obtain ⟨served, count, hinv⟩ := reorderInvariant_of_reachable hmax h
  have hcount := hinv.count_le.trans hmax
  refine ⟨?_, ?_, ?_, ?_, ?_⟩
  · rw [hinv.inFlight]
    exact pairwise_mod_ne half_dvd hcount
  · intro depth hdepth
    simp only [reorderBufferDepth] at hdepth
    split at hdepth
    · obtain rfl := Option.some.inj hdepth
      rw [hinv.inFlight, length_tickets, Nat.one_shiftLeft]
      exact hcount
    · cases hdepth
  · intro hsmall
    obtain ⟨k, hk, hbits⟩ := Option.map_eq_some_iff.mp hwidth
    have hk63 := log2RoundUp_le hk hsmall
    rw [reorderBufferDepth, if_pos (by omega)]
    rfl
  · intro i j a b hij ha hb hentry hbetween
    have hget : ∀ {k : Nat}, k < served + count →
        s.history[k]? = some (k % 2 ^ regs.slotBits) := by
      intro k hk
      rw [hinv.history, List.getElem?_eq_getElem (by rwa [length_tickets]), getElem_tickets,
        Nat.zero_add]
    have hj : j < served + count := by
      have hlen := (List.getElem?_eq_some_iff.mp hb).1
      rwa [hinv.history, length_tickets] at hlen
    rw [hget (hij.trans hj)] at ha
    rw [hget hj] at hb
    obtain rfl := Option.some.inj ha
    obtain rfl := Option.some.inj hb
    refine slotFlag_ne_of_consecutive hij hentry ?_
    exact fun k hik hkj => hbetween k _ hik hkj (hget (hkj.trans hj))
  · rw [hinv.ready_iff]
    refine ⟨fun hmem => ⟨?_, hmem⟩, And.right⟩
    have hin := hinv.arrived_subset hmem
    rw [hinv.inFlight] at hin ⊢
    cases count with
    | zero => cases hin
    | succ n => rw [tickets_cons, hinv.readPointer, List.head?_cons]

/-- The registers of a region for two threads. -/
def pairSlotRegisters :
    SlotRegisters [⟨2, .local, false, false, none⟩, ⟨2, .global, false, false, some 0⟩,
      ⟨2, .local, false, false, none⟩] where
  slotBits := 2
  localSlotReg := 0
  globalSlotReg := 1
  temporarySumReg := 2
  slotBits_pos := by decide
  desc_localSlotReg := rfl
  desc_globalSlotReg := rfl
  desc_temporarySumReg := rfl
  localSlotReg_ne := by decide

/-- Two threads in flight, of which the second one has arrived. -/
theorem reorder_slots_never_collide_pair :
    ∃ s : ReorderState Unit,
      ReorderReachable ⟨fun _ _ => 0, fun _ _ world => ([], world.2)⟩
        pairSlotRegisters 2 s ∧
      s.inFlight = [0, 1] ∧ s.arrived = [1] ∧
      s.inFlight.Pairwise (fun a b => slotEntry 2 a ≠ slotEntry 2 b) := by
  have hrun : ReorderReachable (⟨fun _ _ => 0, fun _ _ world => ([], world.2)⟩ :
      Surroundings Unit) pairSlotRegisters 2 _ :=
    ⟨(fun _ => 0, ()), ((Relation.ReflTransGen.single (.allocate _ 0 (fun _ => 0) (by decide))).tail
      (.allocate _ 0 (fun _ => 0) (by decide))).tail (.write _ 1 (by decide) (by decide))⟩
  have hwidth : slotIdWidth 2 2 = some pairSlotRegisters.slotBits := by decide
  exact ⟨_, hrun, by decide, by decide, (reorder_slots_never_collide hwidth hrun).1⟩

end Invariant

end Kanagawa.Generate
