/-
  Kanagawa.Library.CyclicBuffer

  The cyclic buffer of `data/buffer/cyclic.k`.

  Calls of `write`, `free` and `read` run at the same time, and each of their atomic
  blocks and memory accesses is a step of its own.  A call of `wait` only waits, as
  `read` does first.  A call of `write` takes its address, which lets the readers of
  that address go on, in one step and writes to the memory in a later one, and calls
  of `write` may come to the memory in any order.

  The accesses of one call to the banks of the memory are one step.
-/
import Kanagawa.Arith.Literal
import Kanagawa.Lib.Except
import Kanagawa.Library.UnalignedMemory
import Kanagawa.Library.WideToNarrow

namespace Kanagawa.Library

open Runs Lib.Except

/-- `unaligned_cyclic_buffer` -/
structure UnalignedCyclicBuffer (α : Type) (wordSize readWordSize totalSize : Nat) where
  /-- `_cyclicBufferMem` -/
  cyclicBufferMem : UnalignedReadAlignedWriteMemory α wordSize readWordSize totalSize
  /-- `_writeAddr`; the address type does not overflow. -/
  writeAddr : Nat := 0
  /-- `_freeAddr` -/
  freeAddr : Nat := 0
  /-- `_freeCounter`, with room for `Depth` words -/
  freeCounter : Counter (totalSize / wordSize) := Counter.reset _ (totalSize / wordSize)

namespace UnalignedCyclicBuffer

variable {α : Type} [Inhabited α] {wordSize readWordSize totalSize : Nat}

/-! ## Steps -/

section Steps

variable (b : UnalignedCyclicBuffer α wordSize readWordSize totalSize)

/-- `entry_available` -/
def entryAvailable : Bool × UnalignedCyclicBuffer α wordSize readWordSize totalSize :=
  if b.freeCounter.count.toNat ≠ 0 then
    (true, { b with freeCounter := b.freeCounter.decrement })
  else (false, b)

/-- The write to the memory of a call of `write`, and the assertion of `write_aligned`. -/
def store (localWriteAddr : Nat) (word : Vector α wordSize) :
    Except Failure (UnalignedCyclicBuffer α wordSize readWordSize totalSize) := do
  let addr := localWriteAddr % (totalSize / wordSize) * wordSize
  assert (addr &&& (wordSize - 1) = 0)
  return { b with cyclicBufferMem := b.cyclicBufferMem.writeAligned addr word }

/-- The atomic block of `free`: the number of words that are freed. -/
def claimFree (addr : Nat) :
    Except Failure
      (BitVec (countWidth (totalSize / wordSize)) ×
        UnalignedCyclicBuffer α wordSize readWordSize totalSize) := do
  let wordAddr := addr / wordSize
  -- Not past written entries, and not behind the free pointer
  assert (wordAddr ≤ b.writeAddr)
  assert (wordAddr ≥ b.freeAddr)
  assert (wordAddr - b.freeAddr < 2 ^ countWidth (totalSize / wordSize))
  let count := BitVec.ofNat _ (wordAddr - b.freeAddr)
  return (count, { b with freeAddr := b.freeAddr + count.toNat })

/-- The word that `wait` waits for: the next one if the read spills over. -/
def waitAddr (wordSize readWordSize addr : Nat) : Nat :=
  let wordAddr := addr / wordSize
  if wordSize > 1 then
    wordAddr + if addr % 2 ^ indexWidth wordSize > wordSize - readWordSize then 1 else 0
  else wordAddr

/-- `nonblocking_read` -/
def nonblockingRead (addr : Nat)
    (unknown : UnalignedReadAlignedWriteMemory.Unknown α wordSize readWordSize) :
    Except Failure (Vector α readWordSize) := do
  let wordAddr := addr / wordSize
  -- The address has not been freed, and its word has been written
  assert (wordAddr ≥ b.freeAddr)
  assert (b.writeAddr > wordAddr)
  return b.cyclicBufferMem.read (addr % totalSize) unknown

end Steps

/-! ## Calls -/

/-- A call of `read` that has returned: its address and its result, and whether all of the
    elements were in the memory when it was read. -/
structure Returned (α : Type) (readWordSize : Nat) where
  addr : Nat
  value : Vector α readWordSize
  inMemory : Bool
  deriving DecidableEq

/-- The buffer and the calls that are under way, in order of their last step. -/
structure Calls (α : Type) (wordSize readWordSize totalSize : Nat) where
  buffer : UnalignedCyclicBuffer α wordSize readWordSize totalSize
  /-- Calls of `write` that have an entry and no address yet. -/
  reserved : List (Vector α wordSize) := []
  /-- Calls of `write` that have not written to the memory: `localWriteAddr` and the word. -/
  storing : List (Nat × Vector α wordSize) := []
  /-- Calls of `free` that have not added to the counter: `count`. -/
  releasing : List (BitVec (countWidth (totalSize / wordSize))) := []
  /-- Calls of `read` that wait. -/
  waiting : List Nat := []
  /-- Calls of `read` that have waited. -/
  reading : List Nat := []
  /-- The words that have been written, in order of their addresses. -/
  written : List (Vector α wordSize) := []
  /-- The calls of `read` that have returned. -/
  reads : List (Returned α readWordSize) := []
  failed : Bool := false

/-- The next step of a call, or the start of one. -/
inductive Event (α : Type) (wordSize readWordSize : Nat) where
  | writeReserve (word : Vector α wordSize)
  | writeAnnounce (i : Nat)
  | writeStore (i : Nat)
  | freeClaim (addr : Nat)
  | freeRelease (i : Nat)
  | readStart (addr : Nat)
  | readWait (i : Nat)
  | readAccess (i : Nat)
      (unknown : UnalignedReadAlignedWriteMemory.Unknown α wordSize readWordSize)

/-- The elements of a read are in the memory: their words have been written, and no write to the
    memory is still to come. -/
def Calls.InMemory (s : Calls α wordSize readWordSize totalSize) (addr : Nat) : Prop :=
  ∀ k < readWordSize, (addr + k) / wordSize < s.buffer.writeAddr ∧
    (addr + k) / wordSize ∉ s.storing.map (·.1)

instance (s : Calls α wordSize readWordSize totalSize) (addr : Nat) :
    Decidable (s.InMemory addr) :=
  inferInstanceAs (Decidable (∀ k < readWordSize, _))

/-- One step. A call that has to wait stays where it is. -/
def next (s : Calls α wordSize readWordSize totalSize) :
    Event α wordSize readWordSize → Calls α wordSize readWordSize totalSize
  | .writeReserve word =>
    match s.buffer.entryAvailable with
    | (true, buffer) => { s with buffer, reserved := s.reserved ++ [word] }
    | (false, _) => s
  | .writeAnnounce i =>
    match s.reserved[i]? with
    | some word =>
      { s with
        buffer := { s.buffer with writeAddr := s.buffer.writeAddr + 1 }
        reserved := s.reserved.eraseIdx i
        storing := s.storing ++ [(s.buffer.writeAddr, word)]
        written := s.written ++ [word] }
    | none => s
  | .writeStore i =>
    match s.storing[i]? with
    | some (localWriteAddr, word) =>
      match s.buffer.store localWriteAddr word with
      | .ok buffer => { s with buffer, storing := s.storing.eraseIdx i }
      | .error _ => { s with failed := true }
    | none => s
  | .freeClaim addr =>
    match s.buffer.claimFree addr with
    | .ok (count, buffer) => { s with buffer, releasing := s.releasing ++ [count] }
    | .error _ => { s with failed := true }
  | .freeRelease i =>
    match s.releasing[i]? with
    | some count =>
      { s with
        buffer := { s.buffer with freeCounter := s.buffer.freeCounter.add count }
        releasing := s.releasing.eraseIdx i }
    | none => s
  | .readStart addr => { s with waiting := s.waiting ++ [addr] }
  | .readWait i =>
    match s.waiting[i]? with
    | some addr =>
      if s.buffer.writeAddr > waitAddr wordSize readWordSize addr then
        { s with waiting := s.waiting.eraseIdx i, reading := s.reading ++ [addr] }
      else s
    | none => s
  | .readAccess i unknown =>
    match s.reading[i]? with
    | some addr =>
      match s.buffer.nonblockingRead addr unknown with
      | .ok value =>
        { s with
          reading := s.reading.eraseIdx i
          reads := s.reads ++ [⟨addr, value, decide (s.InMemory addr)⟩] }
      | .error _ => { s with failed := true }
    | none => s

/-- What the callers promise: only words that are written and not free are freed, and a word is
    not freed while it is read. -/
def Enabled (s : Calls α wordSize readWordSize totalSize) : Event α wordSize readWordSize → Prop
  | .freeClaim addr =>
    s.buffer.freeAddr ≤ addr / wordSize ∧ addr / wordSize ≤ s.buffer.writeAddr ∧
      ∀ a ∈ s.waiting ++ s.reading, addr / wordSize ≤ a / wordSize
  | .readStart addr => s.buffer.freeAddr ≤ addr / wordSize
  | _ => True

/-- Any number of calls, on a memory with any content. -/
def calls (mem : UnalignedReadAlignedWriteMemory α wordSize readWordSize totalSize) :
    System (Calls α wordSize readWordSize totalSize) (Event α wordSize readWordSize) where
  start := { buffer := { cyclicBufferMem := mem } }
  Enabled := Enabled
  next := next

/-- The steps after which reads return what was written: the memory is read when no write to the
    words is still to come, and across its end only if its depth is a power of two, and words come
    to one entry of the memory in order of their addresses. -/
def Settled (s : Calls α wordSize readWordSize totalSize) : Event α wordSize readWordSize → Prop
  | .writeStore i =>
    ∀ p, s.storing[i]? = some p → ∀ q ∈ s.storing,
      q.1 % (totalSize / wordSize) = p.1 % (totalSize / wordSize) → p.1 ≤ q.1
  | .readAccess i _ =>
    ∀ addr, s.reading[i]? = some addr →
      (∀ k < readWordSize, (addr + k) / wordSize ∉ s.storing.map (·.1)) ∧
        (addr % totalSize + readWordSize ≤ totalSize ∨ ∃ d, totalSize / wordSize = 2 ^ d)
  | _ => True

/-- The calls whose steps are all settled. -/
def settledCalls (mem : UnalignedReadAlignedWriteMemory α wordSize readWordSize totalSize) :
    System (Calls α wordSize readWordSize totalSize) (Event α wordSize readWordSize) where
  start := (calls mem).start
  Enabled s e := Enabled s e ∧ Settled s e
  next := next

/-- Reads return what was written, once it is in the memory, and words are overwritten once they
    are free. -/
structure ReturnsWritten (s : Calls α wordSize readWordSize totalSize) : Prop where
  ok : s.failed = false
  reads : ∀ read ∈ s.reads, read.inMemory = true ∧
    ∀ k (h : k < readWordSize), (scalars s.written)[read.addr + k]? = some read.value[k]
  overwrites : ∀ p ∈ s.storing, ∀ n < p.1,
    n % (totalSize / wordSize) = p.1 % (totalSize / wordSize) → n < s.buffer.freeAddr

/-! ## Words and elements -/

section Words

omit [Inhabited α] in
/-- A member of a list, and the others. -/
theorem perm_of_getElem? {β : Type} {xs : List β} {i : Nat} {x : β} (h : xs[i]? = some x) :
    (x :: xs.eraseIdx i).Perm xs := by
  obtain ⟨hi, rfl⟩ := List.getElem?_eq_some_iff.mp h
  exact List.getElem_cons_eraseIdx_perm hi

variable {w k : Nat} (addr : Nat)

/-- The word of the last element of a read is the one that the wait waits for, or the one before. -/
theorem word_le_waitAddr (hle : readWordSize ≤ 2 ^ w) (hk : k < readWordSize) :
    addr / 2 ^ w ≤ (addr + k) / 2 ^ w ∧
      (addr + k) / 2 ^ w ≤ waitAddr (2 ^ w) readWordSize addr := by
  have hw := Nat.two_pow_pos w
  refine ⟨Nat.div_le_div_right (by omega), ?_⟩
  have hdivmod := Nat.div_add_mod addr (2 ^ w)
  have hmod := Nat.mod_lt addr hw
  rw [waitAddr]
  rcases Nat.eq_zero_or_pos w with rfl | hpos
  · rw [Nat.pow_zero] at hle ⊢
    have hzero : k = 0 := by omega
    subst hzero
    exact Nat.le_refl _
  · have hone : 2 ^ w > 1 := Nat.one_lt_two_pow hpos.ne'
    have hwraps : 2 ^ indexWidth (2 ^ w) = 2 ^ w := pointerWraps_two_pow hpos
    rw [if_pos hone, hwraps]
    by_cases hspill : addr % 2 ^ w > 2 ^ w - readWordSize
    · rw [if_pos hspill, Nat.div_le_iff_le_mul_add_pred hw, Nat.mul_add]
      omega
    · rw [if_neg hspill, Nat.add_zero, Nat.div_le_iff_le_mul_add_pred hw]
      omega

/-- The place of an element in the memory. -/
theorem mod_totalSize (wordSize x depth : Nat) :
    x % (depth * wordSize) = x / wordSize % depth * wordSize + x % wordSize := by
  rw [Nat.mul_comm depth, Nat.mod_mul, Nat.add_comm, Nat.mul_comm wordSize]

end Words

/-! ## The invariant -/

/-- The words that are in the memory: those of the last addresses, unless their write to the
    memory is still to come. -/
def HoldsWords (s : Calls α wordSize readWordSize totalSize) (flat : Nat → α) : Prop :=
  ∀ n < s.buffer.writeAddr, s.buffer.writeAddr ≤ n + totalSize / wordSize →
    n ∉ s.storing.map (·.1) → ∀ word, s.written[n]? = some word → ∀ j < wordSize,
      flat (n % (totalSize / wordSize) * wordSize + j) = element word j

/-- What holds between the steps. -/
structure Inv (s : Calls α wordSize readWordSize totalSize) : Prop where
  ok : s.failed = false
  length : s.written.length = s.buffer.writeAddr
  storing_nodup : (s.storing.map (·.1)).Nodup
  storing_word : ∀ p ∈ s.storing, s.written[p.1]? = some p.2
  /-- A word in the memory comes before those of the same entry that are still to come. -/
  ordered : ∀ n < s.buffer.writeAddr, n ∉ s.storing.map (·.1) → ∀ m ∈ s.storing.map (·.1),
    m % (totalSize / wordSize) = n % (totalSize / wordSize) → n < m
  holds : ∃ flat, s.buffer.cyclicBufferMem.Holds flat ∧ HoldsWords s flat
  /-- An entry is free, or a call has it, or it holds a word. -/
  count : ∃ free, s.buffer.freeCounter.StandsAt free ∧
    free + s.reserved.length + (s.releasing.map (·.toNat)).sum + s.buffer.writeAddr =
      totalSize / wordSize + s.buffer.freeAddr
  free_le : s.buffer.freeAddr ≤ s.buffer.writeAddr
  /-- What is read is not freed. -/
  kept : ∀ a ∈ s.waiting ++ s.reading, s.buffer.freeAddr ≤ a / wordSize
  waited : ∀ a ∈ s.reading, waitAddr wordSize readWordSize a < s.buffer.writeAddr
  reads : ∀ read ∈ s.reads, read.inMemory = true ∧
    ∀ k (h : k < readWordSize), (scalars s.written)[read.addr + k]? = some read.value[k]

namespace Inv

variable {s : Calls α wordSize readWordSize totalSize}

/-- There are no more words than entries. -/
theorem write_le (h : Inv s) : s.buffer.writeAddr ≤ totalSize / wordSize + s.buffer.freeAddr := by
  obtain ⟨free, -, hcount⟩ := h.count
  omega

theorem storing_lt (h : Inv s) {n : Nat} (hn : n ∈ s.storing.map (·.1)) :
    n < s.buffer.writeAddr := by
  obtain ⟨p, hp, rfl⟩ := List.mem_map.mp hn
  have hword := h.storing_word p hp
  rw [← h.length]
  exact (List.getElem?_eq_some_iff.mp hword).1

/-- Words of one entry are as far apart as there are entries. -/
theorem add_depth_le {depth m n : Nat} (hlt : m < n) (hmod : m % depth = n % depth) :
    m + depth ≤ n := by
  have hm := Nat.div_add_mod m depth
  have hn := Nat.div_add_mod n depth
  rw [hmod] at hm
  have hdiv : m / depth < n / depth := by
    by_contra hge
    have := Nat.mul_le_mul_left depth (Nat.le_of_not_lt hge)
    omega
  have := Nat.mul_le_mul_left depth (Nat.succ_le_of_lt hdiv)
  rw [Nat.succ_eq_add_one, Nat.mul_add, Nat.mul_one] at this
  omega

theorem returnsWritten (h : Inv s) : ReturnsWritten s where
  ok := h.ok
  reads := h.reads
  overwrites := by
    intro p hp n hlt hmod
    have hword := h.storing_lt (List.mem_map_of_mem hp)
    have hdepth := add_depth_le hlt hmod
    have hle := h.write_le
    omega

end Inv

/-! ## The steps keep the invariant -/

section Steps

variable {s : Calls α wordSize readWordSize totalSize}

theorem Inv.writeReserve (h : Inv s) (word : Vector α wordSize) :
    Inv (next s (.writeReserve word)) := by
  obtain ⟨free, hfree, hcount⟩ := h.count
  by_cases hzero : s.buffer.freeCounter.count.toNat ≠ 0
  · simp only [next, entryAvailable, if_pos hzero]
    rw [hfree.toNat_count] at hzero
    refine ⟨h.ok, h.length, h.storing_nodup, h.storing_word, h.ordered, h.holds,
      ⟨free - 1, hfree.decrement (by omega), ?_⟩, h.free_le, h.kept, h.waited, h.reads⟩
    simp only [List.length_append, List.length_singleton]
    omega
  · simp only [next, entryAvailable, if_neg hzero]
    exact h

omit [Inhabited α] in
/-- The elements of the words that were written stay where they are. -/
theorem getElem?_scalars_append {rows : List (Vector α wordSize)} {x : Nat} {v : α}
    (h : (scalars rows)[x]? = some v) (word : Vector α wordSize) :
    (scalars (rows ++ [word]))[x]? = some v := by
  rw [WideFifo.scalars_append, List.getElem?_append_left (List.getElem?_eq_some_iff.mp h).1]
  exact h

theorem Inv.writeAnnounce (h : Inv s) (i : Nat) : Inv (next s (.writeAnnounce i)) := by
  obtain ⟨free, hfree, hcount⟩ := h.count
  cases hword : s.reserved[i]? with
  | none =>
      simp only [next, hword]
      exact h
  | some word =>
      have hlength := h.length
      have hle := h.write_le
      have hkept := h.free_le
      have herase : (s.reserved.eraseIdx i).length + 1 = s.reserved.length := by
        have hperm := (perm_of_getElem? hword).length_eq
        exact hperm
      have hgrows : ∀ {n : Nat} {v : Vector α wordSize}, s.written[n]? = some v →
          (s.written ++ [word])[n]? = some v := fun hv => by
        rw [List.getElem?_append_left (List.getElem?_eq_some_iff.mp hv).1]
        exact hv
      have hnew : s.buffer.writeAddr ∉ s.storing.map (·.1) :=
        fun hmem => Nat.lt_irrefl _ (h.storing_lt hmem)
      simp only [next, hword]
      refine ⟨h.ok, ?_, ?_, ?_, ?_, ?_, ⟨free, hfree, ?_⟩, ?_, h.kept, ?_, ?_⟩
      · rw [List.length_append, List.length_singleton, hlength]
      · rw [List.map_append, List.map_singleton, List.nodup_append]
        refine ⟨h.storing_nodup, List.nodup_singleton _, ?_⟩
        rintro a ha b hb rfl
        rw [List.mem_singleton.mp hb] at ha
        exact hnew ha
      · intro p hp
        rcases List.mem_append.mp hp with hold | hlast
        · exact hgrows (h.storing_word p hold)
        · rw [List.mem_singleton.mp hlast, ← hlength]
          exact List.getElem?_concat_length
      · intro n hn hnot m hm hmod
        dsimp only at hn
        rw [List.map_append, List.map_singleton, List.mem_append, List.mem_singleton] at hnot hm
        have hlt : n < s.buffer.writeAddr := by omega
        rcases hm with hm | rfl
        · exact h.ordered n hlt (fun hmem => hnot (.inl hmem)) m hm hmod
        · exact hlt
      · obtain ⟨flat, hholds, hwords⟩ := h.holds
        refine ⟨flat, hholds, ?_⟩
        intro n hn hrange hnot v hv j hj
        dsimp only at hn hrange hnot hv
        rw [List.map_append, List.map_singleton, List.mem_append, List.mem_singleton] at hnot
        have hlt : n < s.buffer.writeAddr := by omega
        rw [List.getElem?_append_left (by omega)] at hv
        exact hwords n hlt (by omega) (fun hmem => hnot (.inl hmem)) v hv j hj
      · dsimp only
        omega
      · dsimp only
        omega
      · intro a ha
        exact Nat.lt_succ_of_lt (h.waited a ha)
      · intro read hread
        obtain ⟨hin, hvalue⟩ := h.reads read hread
        exact ⟨hin, fun k hk => getElem?_scalars_append (hvalue k hk) word⟩

theorem Inv.freeClaim (h : Inv s) {addr : Nat} (he : Enabled s (.freeClaim addr)) :
    Inv (next s (.freeClaim addr)) := by
  obtain ⟨hfree_le, hle, hreads⟩ := he
  obtain ⟨free, hfree, hcount⟩ := h.count
  have hwrite := h.write_le
  have hwidth := lt_two_pow_countWidth (totalSize / wordSize)
  have hfits : addr / wordSize - s.buffer.freeAddr < 2 ^ countWidth (totalSize / wordSize) := by
    omega
  have hnat : (BitVec.ofNat (countWidth (totalSize / wordSize))
      (addr / wordSize - s.buffer.freeAddr)).toNat = addr / wordSize - s.buffer.freeAddr := by
    rw [BitVec.toNat_ofNat, Nat.mod_eq_of_lt hfits]
  have hclaim : s.buffer.claimFree addr = .ok (BitVec.ofNat _ (addr / wordSize - s.buffer.freeAddr),
      { s.buffer with freeAddr := addr / wordSize }) := by
    simp only [claimFree, assert_of_true (decide_eq_true hle),
      assert_of_true (decide_eq_true (show addr / wordSize ≥ s.buffer.freeAddr from hfree_le)),
      assert_of_true (decide_eq_true hfits), ok_bind, pure_eq_ok, hnat,
      Nat.add_sub_cancel' hfree_le]
  simp only [next, hclaim]
  refine ⟨h.ok, h.length, h.storing_nodup, h.storing_word, h.ordered, h.holds,
    ⟨free, hfree, ?_⟩, hle, hreads, h.waited, h.reads⟩
  simp only [List.map_append, List.map_singleton, List.sum_append, List.sum_singleton, hnat]
  omega

theorem Inv.freeRelease (h : Inv s) (i : Nat) : Inv (next s (.freeRelease i)) := by
  obtain ⟨free, hfree, hcount⟩ := h.count
  cases hrelease : s.releasing[i]? with
  | none =>
      simp only [next, hrelease]
      exact h
  | some count =>
      have hsum := ((perm_of_getElem? hrelease).map (·.toNat)).sum_eq
      rw [List.map_cons, List.sum_cons] at hsum
      have hle := h.free_le
      simp only [next, hrelease]
      refine ⟨h.ok, h.length, h.storing_nodup, h.storing_word, h.ordered, h.holds,
        ⟨free + count.toNat, hfree.add (by omega), ?_⟩, h.free_le, h.kept, h.waited, h.reads⟩
      dsimp only
      omega

theorem Inv.readStart (h : Inv s) {addr : Nat} (he : Enabled s (.readStart addr)) :
    Inv (next s (.readStart addr)) := by
  refine ⟨h.ok, h.length, h.storing_nodup, h.storing_word, h.ordered, h.holds, h.count, h.free_le,
    ?_, h.waited, h.reads⟩
  intro a ha
  simp only [next, List.append_assoc, List.mem_append, List.mem_singleton] at ha
  rcases ha with ha | rfl | ha
  · exact h.kept a (List.mem_append_left _ ha)
  · exact he
  · exact h.kept a (List.mem_append_right _ ha)

theorem Inv.readWait (h : Inv s) (i : Nat) : Inv (next s (.readWait i)) := by
  cases hwaiting : s.waiting[i]? with
  | none =>
      simp only [next, hwaiting]
      exact h
  | some addr =>
      by_cases hwritten : s.buffer.writeAddr > waitAddr wordSize readWordSize addr
      · simp only [next, hwaiting, if_pos hwritten]
        refine ⟨h.ok, h.length, h.storing_nodup, h.storing_word, h.ordered, h.holds, h.count,
          h.free_le, ?_, ?_, h.reads⟩
        · intro a ha
          simp only [List.mem_append, List.mem_singleton] at ha
          rcases ha with ha | ha | rfl
          · exact h.kept a (List.mem_append_left _ (List.mem_of_mem_eraseIdx ha))
          · exact h.kept a (List.mem_append_right _ ha)
          · exact h.kept a (List.mem_append_left _ (List.mem_of_getElem? hwaiting))
        · intro a ha
          rcases List.mem_append.mp ha with ha | ha
          · exact h.waited a ha
          · rw [List.mem_singleton.mp ha]
            exact hwritten
      · simp only [next, hwaiting, if_neg hwritten]
        exact h

end Steps

section Accesses

variable {w : Nat} {s : Calls α (2 ^ w) readWordSize totalSize}

open UnalignedReadAlignedWriteMemory in
theorem capacity_of_le (hle : readWordSize ≤ 2 ^ w) (htotal : 2 ^ w ∣ totalSize) :
    capacity (2 ^ w) readWordSize totalSize = totalSize / 2 ^ w * 2 ^ w ∧
      totalSize / 2 ^ w * 2 ^ w = totalSize := by
  have hhorizontal : numHorizontalBanks (2 ^ w) readWordSize = 1 := if_pos hle
  refine ⟨?_, Nat.div_mul_cancel htotal⟩
  rw [capacity, bankDepth, hhorizontal, Nat.div_one, Nat.one_mul]

/-- A word is written to its entry, and the other entries stay. -/
theorem HoldsWords.store {flat : Nat → α} (h : Inv s) (hwords : HoldsWords s flat)
    {n : Nat} {word : Vector α (2 ^ w)} (hword : s.written[n]? = some word)
    (hn : n ∈ s.storing.map (·.1)) {storing : List (Nat × Vector α (2 ^ w))}
    (hstoring : ∀ m, m ∈ s.storing.map (·.1) ↔ m = n ∨ m ∈ storing.map (·.1))
    (buffer : UnalignedCyclicBuffer α (2 ^ w) readWordSize totalSize)
    (hbuffer : buffer.writeAddr = s.buffer.writeAddr) :
    HoldsWords { s with buffer, storing }
      (flatWrite flat (n % (totalSize / 2 ^ w) * 2 ^ w) word (2 ^ w)) := by
  have hw := Nat.two_pow_pos w
  have hlt := h.storing_lt hn
  intro m hm hrange hnot v hv j hj
  dsimp only at hm hrange hnot hv
  rw [hbuffer] at hm hrange
  rw [flatWrite]
  by_cases hsame : m = n
  · subst hsame
    rw [if_pos (by omega), Nat.add_sub_cancel_left]
    rw [hword] at hv
    rw [Option.some.inj hv]
  · have hmem : m ∉ s.storing.map (·.1) := fun hin => ((hstoring m).mp hin).elim hsame hnot
    have hentry : m % (totalSize / 2 ^ w) ≠ n % (totalSize / 2 ^ w) := by
      intro hmod
      have hbefore := h.ordered m hm hmem n hn hmod.symm
      have := Inv.add_depth_le hbefore hmod
      omega
    rw [if_neg]
    · exact hwords m hm hrange hmem v hv j hj
    · rintro ⟨hle, hlast⟩
      apply hentry
      have hdiv : (m % (totalSize / 2 ^ w) * 2 ^ w + j) / 2 ^ w = n % (totalSize / 2 ^ w) :=
        Nat.div_eq_of_lt_le hle (by rw [Nat.add_mul, Nat.one_mul]; exact hlast)
      rw [Nat.mul_comm, Nat.mul_add_div hw, Nat.div_eq_of_lt hj, Nat.add_zero] at hdiv
      exact hdiv

theorem Inv.writeStore (hr : 0 < readWordSize) (hle : readWordSize ≤ 2 ^ w)
    (hpos : 0 < totalSize) (htotal : 2 ^ w ∣ totalSize) (h : Inv s) {i : Nat}
    (hsettled : Settled s (.writeStore i)) : Inv (next s (.writeStore i)) := by
  cases hstoring : s.storing[i]? with
  | none =>
      simp only [next, hstoring]
      exact h
  | some p =>
      obtain ⟨n, word⟩ := p
      have hw := Nat.two_pow_pos w
      have hdepth : 0 < totalSize / 2 ^ w := Nat.div_pos (Nat.le_of_dvd hpos htotal) hw
      obtain ⟨hcapacity, -⟩ := capacity_of_le hle htotal
      have hmask : n % (totalSize / 2 ^ w) * 2 ^ w &&& (2 ^ w - 1) = 0 := by
        rw [Nat.and_two_pow_sub_one_eq_mod, Nat.mul_mod_left]
      have hstore : s.buffer.store n word = .ok { s.buffer with
          cyclicBufferMem := s.buffer.cyclicBufferMem.writeAligned
            (n % (totalSize / 2 ^ w) * 2 ^ w) word } := by
        simp only [store, assert_of_true (decide_eq_true hmask), ok_bind, pure_eq_ok]
      have hmem := List.mem_of_getElem? hstoring
      have hn : n ∈ s.storing.map (·.1) := List.mem_map_of_mem hmem
      have hperm := (perm_of_getElem? hstoring).map (·.1)
      rw [List.map_cons] at hperm
      have hiff : ∀ m, m ∈ s.storing.map (·.1) ↔
          m = n ∨ m ∈ (s.storing.eraseIdx i).map (·.1) := fun m => by
        rw [← hperm.mem_iff, List.mem_cons]
      have hnodup := hperm.nodup_iff.mpr h.storing_nodup
      rw [List.nodup_cons] at hnodup
      have hinside : n % (totalSize / 2 ^ w) * 2 ^ w + 2 ^ w ≤
          UnalignedReadAlignedWriteMemory.capacity (2 ^ w) readWordSize totalSize := by
        rw [hcapacity, ← Nat.succ_mul]
        exact Nat.mul_le_mul_right _ (Nat.mod_lt n hdepth)
      simp only [next, hstoring, hstore]
      refine ⟨h.ok, h.length, hnodup.2, ?_, ?_, ?_, h.count, h.free_le, h.kept, h.waited, h.reads⟩
      · exact fun q hq => h.storing_word q (List.mem_of_mem_eraseIdx hq)
      · intro m hm hnot m' hm' hmod
        by_cases hsame : m = n
        · subst hsame
          obtain ⟨q, hq, rfl⟩ := List.mem_map.mp hm'
          have hge := hsettled _ hstoring q (List.mem_of_mem_eraseIdx hq) hmod
          have hne : q.1 ≠ m := fun heq => hnodup.1 (heq ▸ hm')
          exact Nat.lt_of_le_of_ne hge (Ne.symm hne)
        · exact h.ordered m hm (fun hin => ((hiff m).mp hin).elim hsame hnot) m'
            ((hiff m').mpr (.inr hm')) hmod
      · obtain ⟨flat, hholds, hwords⟩ := h.holds
        exact ⟨_, hholds.writeAligned hr (.inl hle) hmask hinside word,
          hwords.store h (h.storing_word _ hmem) hn hiff _ rfl⟩

/-- The elements of a read, when its words have been written and are not free. -/
theorem read_flat (hr : 0 < readWordSize) (hle : readWordSize ≤ 2 ^ w) (hpos : 0 < totalSize)
    (htotal : 2 ^ w ∣ totalSize)
    {m : UnalignedReadAlignedWriteMemory α (2 ^ w) readWordSize totalSize}
    {flat : Nat → α} (h : m.Holds flat) {addr : Nat}
    (hwraps : addr % totalSize + readWordSize ≤ totalSize ∨
      ∃ d, 0 < d ∧ totalSize / 2 ^ w = 2 ^ d)
    (unknown : UnalignedReadAlignedWriteMemory.Unknown α (2 ^ w) readWordSize) {k : Nat}
    (hk : k < readWordSize) :
    (m.read (addr % totalSize) unknown)[k] = flat ((addr + k) % totalSize) := by
  obtain ⟨hcapacity, hmul⟩ := capacity_of_le hle htotal
  rcases hwraps with hinside | ⟨d, hd, hdepth⟩
  · rw [h.read hr (.inl hle) (by omega) unknown]
    have hplace : addr % totalSize + k = (addr + k) % totalSize := by
      rw [← Nat.mod_add_mod, Nat.mod_eq_of_lt (show addr % totalSize + k < totalSize by omega)]
    simp only [flatRead, Vector.getElem_ofFn, hplace]
  · rw [h.read_wraps hr hle hd (by rw [← hdepth, hmul]) (Nat.mod_lt _ hpos) unknown]
    simp only [Vector.getElem_ofFn, Nat.mod_add_mod]

theorem Inv.readAccess (hr : 0 < readWordSize) (hle : readWordSize ≤ 2 ^ w)
    (hpos : 0 < totalSize) (htotal : 2 ^ w ∣ totalSize) (h : Inv s) {i : Nat}
    (unknown : UnalignedReadAlignedWriteMemory.Unknown α (2 ^ w) readWordSize)
    (hsettled : Settled s (.readAccess i unknown)) : Inv (next s (.readAccess i unknown)) := by
  cases hreading : s.reading[i]? with
  | none =>
      simp only [next, hreading]
      exact h
  | some addr =>
      obtain ⟨hstored, hwraps⟩ := hsettled addr hreading
      have hw := Nat.two_pow_pos w
      have hmem := List.mem_of_getElem? hreading
      have hwaited := h.waited addr hmem
      have hkept := h.kept addr (List.mem_append_right _ hmem)
      have hwrite := h.write_le
      have hlast := word_le_waitAddr addr hle hr
      rw [Nat.add_zero] at hlast
      have hwritten : addr / 2 ^ w < s.buffer.writeAddr := Nat.lt_of_le_of_lt hlast.2 hwaited
      -- Every word of the read has been written and is in the memory
      have hin : s.InMemory addr := fun k hk =>
        ⟨Nat.lt_of_le_of_lt (word_le_waitAddr addr hle hk).2 hwaited, hstored k hk⟩
      -- With a single entry no read spills over
      have hdepth : addr % totalSize + readWordSize ≤ totalSize ∨
          ∃ d, 0 < d ∧ totalSize / 2 ^ w = 2 ^ d := by
        rcases hwraps with hinside | ⟨d, hd⟩
        · exact .inl hinside
        · rcases Nat.eq_zero_or_pos d with rfl | hpos
          · left
            have hsize : totalSize = 2 ^ w := by
              rw [← Nat.div_mul_cancel htotal, hd, Nat.pow_zero, Nat.one_mul]
            have hlastWord := (word_le_waitAddr addr hle
              (Nat.sub_lt hr Nat.one_pos)).2
            have hsame : (addr + (readWordSize - 1)) / 2 ^ w ≤ addr / 2 ^ w := by
              rw [hd, Nat.pow_zero] at hwrite
              omega
            rw [Nat.div_le_iff_le_mul_add_pred hw] at hsame
            have hdivmod := Nat.div_add_mod addr (2 ^ w)
            rw [hsize]
            omega
          · exact .inr ⟨d, hpos, hd⟩
      have hread : s.buffer.nonblockingRead addr unknown =
          .ok (s.buffer.cyclicBufferMem.read (addr % totalSize) unknown) := by
        simp only [nonblockingRead, assert_of_true
          (decide_eq_true (show addr / 2 ^ w ≥ s.buffer.freeAddr from hkept)),
          assert_of_true (decide_eq_true (show s.buffer.writeAddr > addr / 2 ^ w from hwritten)),
          ok_bind, pure_eq_ok]
      simp only [next, hreading, hread]
      refine ⟨h.ok, h.length, h.storing_nodup, h.storing_word, h.ordered, h.holds, h.count,
        h.free_le, ?_, ?_, ?_⟩
      · intro a ha
        rcases List.mem_append.mp ha with ha | ha
        · exact h.kept a (List.mem_append_left _ ha)
        · exact h.kept a (List.mem_append_right _ (List.mem_of_mem_eraseIdx ha))
      · exact fun a ha => h.waited a (List.mem_of_mem_eraseIdx ha)
      · intro read hmemRead
        rcases List.mem_append.mp hmemRead with hold | hnew
        · exact h.reads read hold
        · rw [List.mem_singleton.mp hnew]
          refine ⟨decide_eq_true hin, fun k hk => ?_⟩
          obtain ⟨flat, hholds, hwords⟩ := h.holds
          obtain ⟨hlt, hnot⟩ := hin k hk
          have hge := (word_le_waitAddr addr hle hk).1
          rw [← h.length] at hlt
          have hrow := List.getElem?_eq_getElem hlt
          rw [h.length] at hlt
          have hflat := hwords _ hlt (by omega) hnot _ hrow _ (Nat.mod_lt (addr + k) hw)
          rw [getElem?_scalars hw hrow]
          dsimp only
          rw [read_flat hr hle hpos htotal hholds hdepth unknown hk]
          have hplace := mod_totalSize (2 ^ w) (addr + k) (totalSize / 2 ^ w)
          rw [Nat.div_mul_cancel htotal] at hplace
          rw [hplace, hflat, element]
          simp [Nat.mod_lt (addr + k) hw]

end Accesses

/-- At the start there are no words. -/
theorem start_inv (mem : UnalignedReadAlignedWriteMemory α wordSize readWordSize totalSize)
    (hholds : ∃ flat, mem.Holds flat) : Inv (calls mem).start where
  ok := rfl
  length := rfl
  storing_nodup := List.nodup_nil
  storing_word := fun _ hp => absurd hp List.not_mem_nil
  ordered := fun n hn => absurd hn (Nat.not_lt_zero n)
  holds := by
    obtain ⟨flat, hflat⟩ := hholds
    exact ⟨flat, hflat, fun n hn => absurd hn (Nat.not_lt_zero n)⟩
  count := ⟨totalSize / wordSize, Counter.standsAt_reset (Nat.le_refl _), rfl⟩
  free_le := Nat.le_refl 0
  kept := fun _ ha => absurd ha List.not_mem_nil
  waited := fun _ ha => absurd ha List.not_mem_nil
  reads := fun _ hr => absurd hr List.not_mem_nil

theorem settledCalls_invariant {w : Nat} (hr : 0 < readWordSize) (hle : readWordSize ≤ 2 ^ w)
    (hpos : 0 < totalSize) (htotal : 2 ^ w ∣ totalSize)
    (mem : UnalignedReadAlignedWriteMemory α (2 ^ w) readWordSize totalSize) :
    (settledCalls mem).Invariant Inv where
  start := start_inv mem ⟨_, mem.holds_content hr (.inl hle)⟩
  step s e h he := by
    obtain ⟨henabled, hsettled⟩ := he
    cases e with
    | writeReserve word => exact h.writeReserve word
    | writeAnnounce i => exact h.writeAnnounce i
    | writeStore i => exact h.writeStore hr hle hpos htotal hsettled
    | freeClaim addr => exact h.freeClaim henabled
    | freeRelease i => exact h.freeRelease i
    | readStart addr => exact h.readStart henabled
    | readWait i => exact h.readWait i
    | readAccess i unknown => exact h.readAccess hr hle hpos htotal unknown hsettled

/-- The cyclic buffer returns what was written in every run of settled steps: reads return the
    elements of the words that were written, which were in the memory, also across words and
    across the end of the memory, and no word is overwritten before it is free. -/
theorem cyclicBuffer_returns_written (w : Nat) (hr : 0 < readWordSize) (hle : readWordSize ≤ 2 ^ w)
    (hpos : 0 < totalSize) (htotal : 2 ^ w ∣ totalSize)
    (mem : UnalignedReadAlignedWriteMemory α (2 ^ w) readWordSize totalSize)
    (s : Calls α (2 ^ w) readWordSize totalSize) (hs : (settledCalls mem).Reachable s) :
    ReturnsWritten s :=
  ((settledCalls_invariant hr hle hpos htotal mem).of_reachable hs).returnsWritten

/-! ### Runs -/

/-- A memory of two-element words, all zero, with two banks of one element. -/
def zeroMemory (totalSize : Nat) : UnalignedReadAlignedWriteMemory Nat 2 2 totalSize :=
  ⟨fun _ _ => Vector.replicate _ (Vector.replicate _ 0)⟩

/-- The steps of one call of `write` without others in between. -/
def writeCall (word : Vector Nat 2) : List (Event Nat 2 2) :=
  [.writeReserve word, .writeAnnounce 0, .writeStore 0]

/-- Three words go through two entries, and a read gets the end of one and the start of the next
    one across the end of the memory. -/
def acrossTheEnd : List (Event Nat 2 2) :=
  writeCall #v[1, 2] ++ writeCall #v[3, 4] ++
    [.freeClaim 2, .readStart 3, .readWait 0, .freeRelease 0] ++ writeCall #v[5, 6] ++
    [.readWait 0, .readAccess 0 fun _ _ => #v[9]]

/-- The only word on its way to the memory may be written. -/
theorem settled_store_only {s : Calls Nat 2 2 totalSize} (h : s.storing.length = 1) :
    Settled s (.writeStore 0) := by
  obtain ⟨x, hx⟩ := List.length_eq_one_iff.mp h
  intro p hp q hq _
  rw [hx] at hp hq
  rw [List.mem_singleton.mp hq, Option.some.inj hp]

theorem cyclicBuffer_returns_written_across :
    ∃ s, (settledCalls (zeroMemory 4)).Reachable s ∧
      s.reads.map (fun read => (read.addr, read.value.toList)) = [(3, [4, 5])] ∧
      ReturnsWritten s := by
  have hall : (settledCalls (zeroMemory 4)).AllEnabled (settledCalls (zeroMemory 4)).start
      acrossTheEnd := by
    refine ⟨⟨trivial, trivial⟩, ⟨trivial, trivial⟩, ⟨trivial, settled_store_only ?_⟩,
      ⟨trivial, trivial⟩, ⟨trivial, trivial⟩, ⟨trivial, settled_store_only ?_⟩,
      ⟨⟨?_, ?_, ?_⟩, trivial⟩, ⟨?_, trivial⟩, ⟨trivial, trivial⟩, ⟨trivial, trivial⟩,
      ⟨trivial, trivial⟩, ⟨trivial, trivial⟩, ⟨trivial, settled_store_only ?_⟩,
      ⟨trivial, trivial⟩, ⟨trivial, fun addr haddr => ⟨?_, .inr ⟨1, rfl⟩⟩⟩, trivial⟩
    · decide +kernel
    · decide +kernel
    · decide +kernel
    · decide +kernel
    · decide +kernel
    · show _ ≤ _
      decide +kernel
    · decide +kernel
    · intro k _ hmem
      revert hmem
      exact List.not_mem_nil
  have hreach := System.Reachable.run .start hall
  exact ⟨_, hreach, by decide +kernel,
    cyclicBuffer_returns_written 1 (by decide) (by decide) (by decide) (by decide) _ _ hreach⟩

/-- A read that comes after the address and before the memory write of its word, and a read across
    the end of a memory of three words, whose row is beyond the end. -/
theorem cyclicBuffer_returns_other :
    (∃ s, (calls (zeroMemory 4)).Reachable s ∧ ¬ ReturnsWritten s) ∧
    ∃ s, (calls (zeroMemory 6)).Reachable s ∧ ¬ ReturnsWritten s := by
  constructor
  · have hall : (calls (zeroMemory 4)).AllEnabled (calls (zeroMemory 4)).start
        [.writeReserve #v[1, 2], .writeAnnounce 0, .readStart 0, .readWait 0,
          .readAccess 0 fun _ _ => #v[9]] :=
      ⟨trivial, trivial, Nat.le_refl 0, trivial, trivial, trivial⟩
    refine ⟨_, .run .start hall, fun h => ?_⟩
    have hread := (h.reads ⟨0, #v[0, 0], false⟩ (by decide +kernel)).1
    exact Bool.false_ne_true hread
  · have hall : (calls (zeroMemory 6)).AllEnabled (calls (zeroMemory 6)).start
        (writeCall #v[1, 2] ++ writeCall #v[3, 4] ++ writeCall #v[5, 6] ++
          [.freeClaim 2, .freeRelease 0] ++ writeCall #v[7, 8] ++
          [.readStart 5, .readWait 0, .readAccess 0 fun _ _ => #v[9]]) := by
      refine ⟨trivial, trivial, trivial, trivial, trivial, trivial, trivial, trivial, trivial, ?_,
        trivial, trivial, trivial, trivial, ?_, trivial, trivial, trivial⟩
      · exact ⟨by decide +kernel, by decide +kernel, by decide +kernel⟩
      · show _ ≤ _
        decide +kernel
    refine ⟨_, .run .start hall, fun h => ?_⟩
    have hread := (h.reads ⟨5, #v[6, 9], true⟩ (by decide +kernel)).2 1 (by decide)
    revert hread
    decide +kernel

end UnalignedCyclicBuffer

end Kanagawa.Library
