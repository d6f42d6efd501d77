/-
  Kanagawa.Library.Ring

  The memory, the pointers and the calls in flight that the FIFOs of
  `data/fifo.k` have in common.

  A call takes a pointer from `atomically<pointer_t>(increment)` in one step and
  accesses the memory in a later one.  Calls of one method pass each step in
  call order, so that the calls between two steps are a list.
-/
import Kanagawa.Lib.Tickets
import Kanagawa.Library.Basic

namespace Kanagawa.Library

open Kanagawa.Tickets

/-! ## What a memory used as a ring holds -/

/-- Entry `k` of what was written is still in the memory, for every entry from `low` on. -/
def HoldsFrom {T : Type} {size : Nat} (mem : Memory T size) (written : List T) (low : Nat) :
    Prop :=
  ∀ k v u, low ≤ k → written[k]? = some v → mem.read (k % size) u = v

namespace HoldsFrom

variable {T : Type} {size : Nat} {mem : Memory T size} {written : List T} {low : Nat}

theorem mono (h : HoldsFrom mem written low) {low' : Nat} (hle : low ≤ low') :
    HoldsFrom mem written low' :=
  fun k v u hk hv => h k v u (hle.trans hk) hv

/-- The next entry goes where no entry from `low` on is. -/
theorem write (h : HoldsFrom mem written low) (hroom : written.length < low + size) (v : T) :
    HoldsFrom (mem.write (written.length % size) v) (written ++ [v]) low := by
  intro k w u hk hw
  have hsize : 0 < size := by
    have := (List.getElem?_eq_some_iff.mp hw).1
    rw [List.length_append, List.length_singleton] at this
    omega
  rcases Nat.lt_trichotomy k written.length with hlt | rfl | hgt
  · -- Two numbers less than `size` apart do not meet modulo `size`.
    have hne : written.length % size ≠ k % size := by
      intro heq
      have hmod : (k + (written.length - k)) % size = (k + 0) % size := by
        rw [Nat.add_sub_cancel' hlt.le]
        exact heq
      have hzero := eq_of_mod_eq (by omega) hsize hmod
      omega
    rw [Memory.read_write_of_ne _ hne]
    rw [List.getElem?_append_left hlt] at hw
    exact h k w u hk hw
  · rw [Memory.read_write_self _ (Nat.mod_lt _ hsize)]
    simpa using hw
  · rw [List.getElem?_eq_none (by rw [List.length_append, List.length_singleton]; omega)] at hw
    exact absurd hw (by simp)

end HoldsFrom

/-! ## Pointers -/

/-- A pointer to a ring wraps where the ring does. At size 1 it does not: it has one bit. -/
def PointerWraps (size : Nat) : Prop := 2 ^ indexWidth size = size

theorem pointerWraps_two_pow {k : Nat} (hk : 0 < k) : PointerWraps (2 ^ k) := by
  have hlt : 1 < 2 ^ k := Nat.one_lt_two_pow (by omega)
  rw [PointerWraps, indexWidth, if_pos hlt, Nat.clog_pow 2 k (by omega)]

theorem PointerWraps.pos {size : Nat} (h : PointerWraps size) : 0 < size := by
  rw [← h]
  exact Nat.two_pow_pos _

/-- A pointer that moves on by an amount. -/
theorem PointerWraps.toNat_add {size : Nat} (h : PointerWraps size)
    {p : BitVec (indexWidth size)} {n : Nat} (hp : p.toNat = n % size)
    (amount : BitVec (indexWidth size)) :
    (p + amount).toNat = (n + amount.toNat) % size := by
  rw [BitVec.toNat_add, h, hp, Nat.mod_add_mod]

theorem PointerWraps.toNat_one {size : Nat} (h : PointerWraps size) (hone : 1 < size) :
    (1#(indexWidth size)).toNat = 1 := by
  rw [BitVec.toNat_ofNat, h, Nat.mod_eq_of_lt hone]

theorem PointerWraps.one_lt {size : Nat} (h : PointerWraps size) : 1 < size := by
  rw [← h]
  refine Nat.one_lt_two_pow ?_
  unfold indexWidth
  split
  · rename_i hlt
    exact (Nat.clog_pos (by omega) hlt).ne'
  · omega

/-! ## Rings -/

/-- The data memory of a FIFO with its pointers and the calls between taking a pointer and
accessing the memory. An enqueue call in flight is its local state, of type `L`. -/
structure Ring (L T : Type) (size : Nat) where
  /-- `_dataMem` -/
  dataMem : Memory T size
  /-- The state of `atomically` in `enqueue`. -/
  producer : BitVec (indexWidth size) := 0#_
  /-- The state of `atomically` in `dequeue`. -/
  consumer : BitVec (indexWidth size) := 0#_
  /-- Enqueue calls with their `producer_index`. -/
  storing : List (L × BitVec (indexWidth size)) := []
  /-- The `consumer_index` of dequeue calls. -/
  loading : List (BitVec (indexWidth size)) := []
  /-- The enqueue calls that have stored their value, in order. -/
  written : List L := []
  /-- The results of the dequeue calls, in order. -/
  dequeued : List T := []

namespace Ring

variable {L T : Type} {size : Nat}

/-- An enqueue call takes a pointer. -/
def claimStore (r : Ring L T size) (l : L) : Ring L T size :=
  { r with storing := r.storing ++ [(l, r.producer)], producer := r.producer + 1#_ }

/-- The oldest enqueue call with a pointer stores its value. -/
def store (value : L → T) (r : Ring L T size) : Ring L T size :=
  match r.storing with
  | [] => r
  | (l, index) :: storing =>
    { r with dataMem := r.dataMem.write index.toNat (value l), storing
             written := r.written ++ [l] }

/-- A dequeue call takes a pointer. -/
def claimLoad (r : Ring L T size) : Ring L T size :=
  { r with loading := r.loading ++ [r.consumer], consumer := r.consumer + 1#_ }

/-- The oldest dequeue call with a pointer reads its result; `unknown` is what a read outside the
memory gives. -/
def load (r : Ring L T size) (unknown : T) : Ring L T size :=
  match r.loading with
  | [] => r
  | index :: loading =>
    { r with loading, dequeued := r.dequeued ++ [r.dataMem.read index.toNat unknown] }

/-- The pointers number the entries modulo the size, and the entries not read yet are in the
memory. -/
structure Inv (value : L → T) (r : Ring L T size) : Prop where
  producer : r.producer.toNat = (r.written.length + r.storing.length) % size
  consumer : r.consumer.toNat = (r.dequeued.length + r.loading.length) % size
  storing : r.storing.map (·.2.toNat) = tickets size r.written.length r.storing.length
  loading : r.loading.map (·.toNat) = tickets size r.dequeued.length r.loading.length
  holds : HoldsFrom r.dataMem (r.written.map value) r.dequeued.length
  dequeued : r.dequeued <+: r.written.map value

variable {value : L → T} {r : Ring L T size}

theorem Inv.start (dataMem : Memory T size) : Inv value ({ dataMem } : Ring L T size) where
  producer := by simp
  consumer := by simp
  storing := rfl
  loading := rfl
  holds := fun k v u _ hv => by simp at hv
  dequeued := List.nil_prefix

theorem Inv.claimStore (hsize : PointerWraps size) (h : r.Inv value) (l : L) :
    (r.claimStore l).Inv value where
  producer := by
    simp only [Ring.claimStore, List.length_append, List.length_singleton]
    rw [hsize.toNat_add h.producer, hsize.toNat_one hsize.one_lt, Nat.add_assoc]
  consumer := h.consumer
  storing := by
    simp only [Ring.claimStore, List.map_append, List.length_append, List.length_singleton,
      List.map_cons, List.map_nil, tickets_append_one, h.storing, h.producer]
  loading := h.loading
  holds := h.holds
  dequeued := h.dequeued

theorem Inv.claimLoad (hsize : PointerWraps size) (h : r.Inv value) : r.claimLoad.Inv value where
  producer := h.producer
  consumer := by
    simp only [Ring.claimLoad, List.length_append, List.length_singleton]
    rw [hsize.toNat_add h.consumer, hsize.toNat_one hsize.one_lt, Nat.add_assoc]
  storing := h.storing
  loading := by
    simp only [Ring.claimLoad, List.map_append, List.length_append, List.length_singleton,
      List.map_cons, List.map_nil, tickets_append_one, h.loading, h.consumer]
  holds := h.holds
  dequeued := h.dequeued

/-- A value is stored where no unread one is. -/
theorem Inv.store (h : r.Inv value) {l : L} {index : BitVec (indexWidth size)}
    {rest : List (L × BitVec (indexWidth size))} (hstoring : r.storing = (l, index) :: rest)
    (hroom : r.written.length < r.dequeued.length + size) :
    (r.store value).Inv value := by
  have htickets := h.storing
  simp only [hstoring, List.map_cons, List.length_cons, tickets_cons, List.cons.injEq] at htickets
  obtain ⟨hindex, hrest⟩ := htickets
  have hproducer := h.producer
  rw [hstoring, List.length_cons] at hproducer
  simp only [Ring.store, hstoring]
  constructor
  · simp only [List.length_append, List.length_singleton, hproducer]
    congr 1
    omega
  · exact h.consumer
  · simpa using hrest
  · exact h.loading
  · have hwrite := h.holds.write (by simpa using hroom) (value l)
    simpa [hindex] using hwrite
  · simp only [List.map_append]
    exact h.dequeued.trans (List.prefix_append _ _)

/-- A call reads the oldest value that was not read yet. -/
theorem Inv.load (h : r.Inv value) {index : BitVec (indexWidth size)}
    {rest : List (BitVec (indexWidth size))} (hloading : r.loading = index :: rest)
    (hwritten : r.dequeued.length < r.written.length) (unknown : T) :
    (r.load unknown).Inv value := by
  have htickets := h.loading
  simp only [hloading, List.map_cons, List.length_cons, tickets_cons, List.cons.injEq] at htickets
  obtain ⟨hindex, hrest⟩ := htickets
  have hconsumer := h.consumer
  rw [hloading, List.length_cons] at hconsumer
  -- The result is the entry behind those dequeued so far.
  have hlt : r.dequeued.length < (r.written.map value).length := by simpa using hwritten
  have hread : r.dataMem.read index.toNat unknown = (r.written.map value)[r.dequeued.length] := by
    rw [hindex]
    exact h.holds _ _ _ le_rfl (List.getElem?_eq_getElem hlt)
  simp only [Ring.load, hloading]
  constructor
  · exact h.producer
  · simp only [List.length_append, List.length_singleton, hconsumer]
    congr 1
    omega
  · exact h.storing
  · simpa using hrest
  · exact h.holds.mono (by simp)
  · rw [hread]
    have htake : r.dequeued = (r.written.map value).take r.dequeued.length :=
      List.prefix_iff_eq_take.mp h.dequeued
    have hnext : r.dequeued ++ [(r.written.map value)[r.dequeued.length]] =
        (r.written.map value).take (r.dequeued.length + 1) := by
      rw [List.take_add_one, ← htake, List.getElem?_eq_getElem hlt, Option.toList_some]
    rw [hnext]
    exact List.take_prefix _ _

end Ring

end Kanagawa.Library
