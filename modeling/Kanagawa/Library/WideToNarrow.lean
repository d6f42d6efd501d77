/-
  Kanagawa.Library.WideToNarrow

  The FIFO of `data/fifo/wide_to_narrow.k` is a queue of scalars.

  Arrays go in and scalars come out, each of them with a number of scalars behind
  it that are discarded.  Both semaphores count scalars, so that an array is
  written once all scalars of the array it overwrites have been read.
-/
import Kanagawa.Library.Fifo

namespace Kanagawa.Library

open Kanagawa.Runs Kanagawa.Tickets

/-! ## Scalars of arrays -/

/-- The scalars of a list of arrays. -/
def scalars {T : Type} {n : Nat} (rows : List (Vector T n)) : List T := rows.flatMap (·.toList)

/-- A scalar is in the array at its number divided by the size of an array. -/
theorem getElem?_scalars {T : Type} {n : Nat} {rows : List (Vector T n)} {b : Nat}
    {row : Vector T n} (hn : 0 < n) (hrow : rows[b / n]? = some row) :
    (scalars rows)[b]? = row[b % n]? := by
  induction rows generalizing b with
  | nil => simp at hrow
  | cons first rows ih =>
    simp only [scalars, List.flatMap_cons] at ih ⊢
    by_cases hb : b < n
    · rw [Nat.div_eq_of_lt hb, List.getElem?_cons_zero, Option.some.injEq] at hrow
      subst hrow
      rw [List.getElem?_append_left (by simpa using hb), Nat.mod_eq_of_lt hb]
      simp
    · have hle : n ≤ b := Nat.le_of_not_lt hb
      have hdiv : b / n = (b - n) / n + 1 := by
        rw [← Nat.add_div_right _ hn, Nat.sub_add_cancel hle]
      rw [hdiv, List.getElem?_cons_succ] at hrow
      rw [List.getElem?_append_right (by simpa using hle), Vector.length_toList, ih hrow,
        Nat.mod_eq_sub_mod hle]

/-- What is left of a sequence when each of the counts takes one element and discards those behind
it: all in all as many as the count. -/
def kept {T : Type} : List Nat → List T → List T
  | [], xs => xs
  | count :: counts, xs => xs.head?.toList ++ kept counts (xs.drop count)

/-- Results that stand at the sums of the counts are the first of those kept. -/
theorem prefix_kept {T : Type} {counts rest : List Nat} {xs results : List T}
    (hlength : results.length = counts.length)
    (h : ∀ i v, results[i]? = some v → xs[(counts.take i).sum]? = some v) :
    results <+: kept (counts ++ rest) xs := by
  induction counts generalizing xs results with
  | nil => rw [List.eq_nil_of_length_eq_zero hlength]; exact List.nil_prefix
  | cons count counts ih =>
    cases results with
    | nil => exact List.nil_prefix
    | cons v results =>
      have hhead : xs.head? = some v := by
        rw [List.head?_eq_getElem?]
        exact h 0 v rfl
      simp only [List.cons_append, kept, hhead, Option.toList_some, List.nil_append]
      rw [List.cons_prefix_cons]
      refine ⟨rfl, ih (by simpa using hlength) fun i w hw => ?_⟩
      have hnext := h (i + 1) w hw
      rw [List.take_succ_cons, List.sum_cons] at hnext
      rw [List.getElem?_drop]
      exact hnext

/-! ## The FIFO -/

/-- `fifo<T, ArraySize, ArrayDepth>` with the calls in flight. -/
structure WideFifo (T : Type) (arraySize arrayDepth : Nat) where
  /-- `_data_mem` -/
  dataMem : Memory (Vector T arraySize) arrayDepth
  /-- `_read_semaphore` -/
  readSemaphore : Semaphore (arrayDepth * arraySize) := Semaphore.initial _ 0
  /-- `_write_semaphore` -/
  writeSemaphore : Semaphore (arrayDepth * arraySize) :=
    Semaphore.initial _ (arrayDepth * arraySize)
  /-- `_producer_index` -/
  producer : BitVec (indexWidth arrayDepth) := 0#_
  /-- `_consumer_index` -/
  consumer : BitVec (indexWidth (arrayDepth * arraySize)) := 0#_
  /-- Enqueue calls behind the wait, before they have a pointer. -/
  claiming : List (Vector T arraySize) := []
  /-- Enqueue calls with their `snapped_producer_index`. -/
  storing : List (Vector T arraySize × BitVec (indexWidth arrayDepth)) := []
  /-- Enqueue calls behind the memory, before the post. -/
  posting : Nat := 0
  /-- The `total_count` of dequeue calls behind the wait, before they have a pointer. -/
  dequeueClaiming : List (BitVec (countWidth arraySize)) := []
  /-- Dequeue calls with their `snapped_consumer_index`. -/
  loading : List (BitVec (indexWidth (arrayDepth * arraySize)) ×
    BitVec (countWidth arraySize)) := []
  /-- Dequeue calls behind the memory, before the post. -/
  dequeuePosting : List (BitVec (countWidth arraySize)) := []
  /-- The enqueue calls behind the wait, in order. -/
  enqueued : List (Vector T arraySize) := []
  /-- The arrays in the order they were written. -/
  written : List (Vector T arraySize) := []
  /-- The results of the dequeue calls, in order. -/
  dequeued : List T := []
  /-- The `total_count` of the dequeue calls that have a result, in order. -/
  loaded : List (BitVec (countWidth arraySize)) := []

namespace WideFifo

inductive Event (T : Type) (arraySize : Nat) where
  | enqueueWait (values : Vector T arraySize)
  | enqueueClaim
  | enqueueStore
  | enqueuePost
  | dequeueWait (discardCount : BitVec (indexWidth arraySize))
  | dequeueClaim
  | dequeueLoad (unknown : Vector T arraySize)
  | dequeuePost

variable {T : Type} [Inhabited T] {A D : Nat}

/-- `total_count` is one more than `discard_count`, in a `count_t<ArraySize>`. -/
def totalCount (discardCount : BitVec (indexWidth A)) : BitVec (countWidth A) :=
  BitVec.ofNat _ (discardCount.toNat + 1)

/-- The steps of `enqueue` and of `dequeue_and_discard`, which `dequeue` calls with zero. -/
def next (enqueueBlocking dequeueBlocking : Bool) (s : WideFifo T A D) :
    Event T A → WideFifo T A D
  | .enqueueWait values =>
    let turn := s.writeSemaphore.waitMultiple enqueueBlocking (BitVec.ofNat _ A)
    let s := { s with writeSemaphore := turn.state }
    if turn.returns then
      { s with claiming := s.claiming ++ [values], enqueued := s.enqueued ++ [values] }
    else s
  | .enqueueClaim =>
    match s.claiming with
    | [] => s
    | values :: claiming =>
      { s with claiming, storing := s.storing ++ [(values, s.producer)]
               producer := s.producer + 1#_ }
  | .enqueueStore =>
    match s.storing with
    | [] => s
    | (values, index) :: storing =>
      { s with storing, dataMem := s.dataMem.write index.toNat values
               written := s.written ++ [values], posting := s.posting + 1 }
  | .enqueuePost =>
    { s with readSemaphore := s.readSemaphore.postMultiple (BitVec.ofNat _ A)
             posting := s.posting - 1 }
  | .dequeueWait discardCount =>
    let total := totalCount discardCount
    let turn := s.readSemaphore.waitMultiple dequeueBlocking (total.setWidth _)
    let s := { s with readSemaphore := turn.state }
    if turn.returns then { s with dequeueClaiming := s.dequeueClaiming ++ [total] } else s
  | .dequeueClaim =>
    match s.dequeueClaiming with
    | [] => s
    | total :: dequeueClaiming =>
      { s with dequeueClaiming, loading := s.loading ++ [(s.consumer, total)]
               consumer := s.consumer + BitVec.ofNat _ total.toNat }
  | .dequeueLoad unknown =>
    match s.loading with
    | [] => s
    | (index, total) :: loading =>
      let results := s.dataMem.read (index.toNat / A) unknown
      { s with loading, dequeued := s.dequeued ++ [arrayRead results default (index.toNat % A)]
               loaded := s.loaded ++ [total]
               dequeuePosting := s.dequeuePosting ++ [total] }
  | .dequeuePost =>
    match s.dequeuePosting with
    | [] => s
    | total :: dequeuePosting =>
      { s with writeSemaphore := s.writeSemaphore.postMultiple (total.setWidth _)
               dequeuePosting }

/-- The assertions of a step. -/
def asserts (enqueueBlocking dequeueBlocking : Bool) (s : WideFifo T A D) : Event T A → Bool
  | .enqueueWait _ => (s.writeSemaphore.waitMultiple enqueueBlocking (BitVec.ofNat _ A)).asserts
  | .enqueuePost => s.readSemaphore.postMultipleAssert (BitVec.ofNat _ A)
  | .dequeueWait discardCount =>
    (s.readSemaphore.waitMultiple dequeueBlocking ((totalCount discardCount).setWidth _)).asserts
  | .dequeuePost =>
    s.dequeuePosting.head?.all fun total => s.writeSemaphore.postMultipleAssert (total.setWidth _)
  | _ => true

/-- A step has a call that takes it, and the callers of non-blocking methods keep their promise
that the FIFO has room for an array, or has as many scalars as they take. -/
def Enabled (enqueueBlocking dequeueBlocking : Bool) (s : WideFifo T A D) : Event T A → Prop
  | .enqueueWait _ => enqueueBlocking = true ∨ A ≤ s.writeSemaphore.count.toNat
  | .enqueueClaim => s.claiming ≠ []
  | .enqueueStore => s.storing ≠ []
  | .enqueuePost => 0 < s.posting
  | .dequeueWait discardCount =>
    dequeueBlocking = true ∨ discardCount.toNat + 1 ≤ s.readSemaphore.count.toNat
  | .dequeueClaim => s.dequeueClaiming ≠ []
  | .dequeueLoad _ => s.loading ≠ []
  | .dequeuePost => s.dequeuePosting ≠ []

/-- Any number of calls, from a memory with any content. -/
def system (enqueueBlocking dequeueBlocking : Bool) (dataMem : Memory (Vector T A) D) :
    System (WideFifo T A D) (Event T A) where
  start := { dataMem }
  Enabled := Enabled enqueueBlocking dequeueBlocking
  next := next enqueueBlocking dequeueBlocking

/-- The number of scalars of dequeue calls. -/
def total (counts : List (BitVec (countWidth A))) : Nat := (counts.map (·.toNat)).sum

/-- Scalars whose credits a call holds. -/
def inTransit (s : WideFifo T A D) : Nat :=
  (s.claiming.length + s.storing.length + s.posting) * A +
    total s.dequeueClaiming + total (s.loading.map (·.2)) + total s.dequeuePosting

/-- The `total_count` of all dequeue calls behind the wait, in order. -/
def counts (s : WideFifo T A D) : List Nat :=
  (s.loaded ++ s.loading.map (·.2) ++ s.dequeueClaiming).map (·.toNat)

/-- The FIFO is a queue of scalars: its results are the first of those enqueued that no call
discards. -/
structure IsQueue (s : WideFifo T A D) : Prop where
  dequeued : s.dequeued <+: kept s.counts (scalars s.enqueued)
  written : s.written <+: s.enqueued
  holds : HoldsFrom s.dataMem s.written (total s.loaded / A)
  loading : s.loading ≠ [] → total s.loaded < s.written.length * A
  count : s.readSemaphore.count.toNat + s.writeSemaphore.count.toNat + s.inTransit = D * A

/-! ### Widths -/

section Widths

theorem countWidth_mono {m n : Nat} (h : m ≤ n) : countWidth m ≤ countWidth n :=
  Nat.clog_mono_right 2 (by omega)

/-- A count of scalars of an array is a count of scalars of the FIFO. -/
theorem toNat_setWidth_count (hD : 0 < D) (c : BitVec (countWidth A)) :
    (c.setWidth (countWidth (D * A))).toNat = c.toNat := by
  have hle : countWidth A ≤ countWidth (D * A) :=
    countWidth_mono (Nat.le_mul_of_pos_left A hD)
  rw [BitVec.toNat_setWidth]
  exact Nat.mod_eq_of_lt (c.isLt.trans_le (Nat.pow_le_pow_right (by omega) hle))

theorem toNat_ofNat_arraySize (hD : 0 < D) :
    (BitVec.ofNat (countWidth (D * A)) A).toNat = A := by
  have hlt := lt_two_pow_countWidth (D * A)
  have hle : A ≤ D * A := Nat.le_mul_of_pos_left A hD
  rw [BitVec.toNat_ofNat]
  exact Nat.mod_eq_of_lt (by omega)

/-- `total_count` counts the element that is returned and those that are discarded. -/
theorem toNat_totalCount {d : BitVec (indexWidth A)} (h : d.toNat + 1 ≤ A) :
    (totalCount d).toNat = d.toNat + 1 := by
  have hlt := lt_two_pow_countWidth A
  rw [totalCount, BitVec.toNat_ofNat]
  exact Nat.mod_eq_of_lt (by omega)

end Widths

/-! ### The invariant -/

/-- The pointers of dequeue calls number the scalars modulo the size. -/
def Pointers (size : Nat) : Nat → List (BitVec (indexWidth size) × BitVec (countWidth A)) → Prop
  | _, [] => True
  | first, (index, total) :: rest =>
    index.toNat = first % size ∧ Pointers size (first + total.toNat) rest

theorem Pointers.append_one {size first : Nat}
    {calls : List (BitVec (indexWidth size) × BitVec (countWidth A))}
    (h : Pointers size first calls) {index : BitVec (indexWidth size)}
    (hindex : index.toNat = (first + total (calls.map (·.2))) % size)
    (count : BitVec (countWidth A)) : Pointers size first (calls ++ [(index, count)]) := by
  induction calls generalizing first with
  | nil => exact ⟨by simpa [total] using hindex, trivial⟩
  | cons call calls ih =>
    refine ⟨h.1, ih h.2 ?_⟩
    simpa [total, Nat.add_assoc] using hindex

@[simp] theorem total_nil : total ([] : List (BitVec (countWidth A))) = 0 := rfl

@[simp] theorem total_cons (c : BitVec (countWidth A)) (cs : List (BitVec (countWidth A))) :
    total (c :: cs) = c.toNat + total cs := by
  simp [total]

@[simp] theorem total_append (cs cs' : List (BitVec (countWidth A))) :
    total (cs ++ cs') = total cs + total cs' := by
  simp [total]

structure Inv (s : WideFifo T A D) : Prop where
  enqueued : s.enqueued = s.written ++ s.storing.map (·.1) ++ s.claiming
  producer : s.producer.toNat = (s.written.length + s.storing.length) % D
  storing : s.storing.map (·.2.toNat) = tickets D s.written.length s.storing.length
  consumer : s.consumer.toNat = (total s.loaded + total (s.loading.map (·.2))) % (D * A)
  loading : Pointers (D * A) (total s.loaded) s.loading
  positive : ∀ c ∈ s.loading.map (·.2) ++ s.dequeueClaiming, 0 < c.toNat
  holds : HoldsFrom s.dataMem s.written (total s.loaded / A)
  length : s.dequeued.length = s.loaded.length
  dequeued : ∀ i v, s.dequeued[i]? = some v →
    (scalars s.written)[((s.loaded.map (·.toNat)).take i).sum]? = some v
  /-- A scalar that was written is not posted yet, or it stands in the read semaphore, or a
  dequeue call has its credit, or it was read or discarded. -/
  credits : s.written.length * A = s.posting * A + s.readSemaphore.count.toNat +
    total s.dequeueClaiming + total (s.loading.map (·.2)) + total s.loaded
  count : s.readSemaphore.count.toNat + s.writeSemaphore.count.toNat + s.inTransit = D * A

omit [Inhabited T] in
theorem scalars_append (rows rows' : List (Vector T A)) :
    scalars (rows ++ rows') = scalars rows ++ scalars rows' := by
  simp [scalars]

omit [Inhabited T] in
theorem Inv.loading_lt {s : WideFifo T A D} (h : Inv s) (hne : s.loading ≠ []) :
    total s.loaded < s.written.length * A := by
  have hcredits := h.credits
  obtain ⟨⟨index, c⟩, rest, hloading⟩ := List.exists_cons_of_ne_nil hne
  have hpos : 0 < c.toNat := h.positive c (by simp [hloading])
  simp only [hloading, List.map_cons, total_cons] at hcredits
  omega

omit [Inhabited T] in
theorem Inv.isQueue {s : WideFifo T A D} (h : Inv s) : IsQueue s where
  dequeued := by
    have hcounts : s.counts =
        s.loaded.map (·.toNat) ++ (s.loading.map (·.2) ++ s.dequeueClaiming).map (·.toNat) := by
      simp only [counts, List.map_append, List.append_assoc]
    rw [hcounts]
    refine prefix_kept (by simpa using h.length) fun i v hv => ?_
    have hscalar := h.dequeued i v hv
    have hlt := (List.getElem?_eq_some_iff.mp hscalar).1
    rw [h.enqueued, List.append_assoc, scalars_append, List.getElem?_append_left hlt]
    exact hscalar
  written := by
    rw [h.enqueued, List.append_assoc]
    exact List.prefix_append _ _
  holds := h.holds
  loading := h.loading_lt
  count := h.count

/-! ### Steps -/

variable {eb db : Bool} {s : WideFifo T A D}

theorem Inv.enqueueWait (hD : 0 < D) (h : Inv s) (values : Vector T A)
    (he : Enabled eb db s (.enqueueWait values)) :
    asserts eb db s (.enqueueWait values) = true ∧ Inv (next eb db s (.enqueueWait values)) := by
  have hcount := h.count
  have harray := toNat_ofNat_arraySize (A := A) hD
  have hpromise : eb = true ∨
      (BitVec.ofNat (countWidth (D * A)) A).toNat ≤ s.writeSemaphore.count.toNat := by
    rw [harray]
    exact he
  obtain ⟨hassert, ⟨hreturns, hle, hstate⟩ | ⟨hreturns, hstate⟩⟩ :=
    Semaphore.waitMultiple_cases (by omega) hpromise
  · refine ⟨hassert, ?_⟩
    rw [harray] at hle hstate
    simp only [next, hreturns, if_true]
    refine ⟨?_, h.producer, h.storing, h.consumer, h.loading, h.positive, h.holds, h.length,
      h.dequeued, h.credits, ?_⟩
    · simp only [h.enqueued, List.append_assoc]
    · simp only [inTransit, List.length_append, List.length_singleton, Nat.add_mul,
        Nat.one_mul, hstate] at hcount ⊢
      omega
  · refine ⟨hassert, ?_⟩
    simp only [next, hreturns, hstate, if_false, Bool.false_eq_true]
    exact h

/-- A dequeue call whose count fits takes credits for its element and for those it discards. -/
theorem Inv.dequeueWait (hD : 0 < D) (h : Inv s) {d : BitVec (indexWidth A)}
    (hd : d.toNat + 1 ≤ A) (he : Enabled eb db s (.dequeueWait d)) :
    asserts eb db s (.dequeueWait d) = true ∧ Inv (next eb db s (.dequeueWait d)) := by
  have hcount := h.count
  have hcredits := h.credits
  have htotal := toNat_totalCount hd
  have hval : ((totalCount d).setWidth (countWidth (D * A))).toNat = d.toNat + 1 := by
    rw [toNat_setWidth_count hD, htotal]
  have hpromise : db = true ∨
      ((totalCount d).setWidth (countWidth (D * A))).toNat ≤ s.readSemaphore.count.toNat := by
    rw [hval]
    exact he
  obtain ⟨hassert, ⟨hreturns, hle, hstate⟩ | ⟨hreturns, hstate⟩⟩ :=
    Semaphore.waitMultiple_cases (by omega) hpromise
  · refine ⟨hassert, ?_⟩
    rw [hval] at hle hstate
    simp only [next, hreturns, if_true]
    refine ⟨h.enqueued, h.producer, h.storing, h.consumer, h.loading, ?_, h.holds, h.length,
      h.dequeued, ?_, ?_⟩
    · intro c hc
      rw [← List.append_assoc, List.mem_append, List.mem_singleton] at hc
      rcases hc with hc | rfl
      · exact h.positive c hc
      · omega
    · simp only [total_append, total_cons, total_nil, htotal, hstate]
      omega
    · simp only [inTransit, total_append, total_cons, total_nil, htotal, hstate] at hcount ⊢
      omega
  · refine ⟨hassert, ?_⟩
    simp only [next, hreturns, hstate, if_false, Bool.false_eq_true]
    exact h

/-- An array is stored once every scalar of the one it overwrites was read or discarded. -/
theorem Inv.enqueueStore (hA : 0 < A) (h : Inv s) (he : Enabled eb db s .enqueueStore) :
    Inv (next eb db s .enqueueStore) := by
  have hcount := h.count
  have hcredits := h.credits
  obtain ⟨⟨values, index⟩, rest, hstoring⟩ := List.exists_cons_of_ne_nil he
  have htickets := h.storing
  simp only [hstoring, List.map_cons, List.length_cons, tickets_cons, List.cons.injEq] at htickets
  obtain ⟨hindex, hrest⟩ := htickets
  have hproducer := h.producer
  rw [hstoring, List.length_cons] at hproducer
  simp only [inTransit, hstoring, List.length_cons, Nat.add_mul, Nat.one_mul] at hcount
  -- In arrays: what was written and is not read, with the new one, fits the memory.
  have hroom : s.written.length < total s.loaded / A + D := by
    have hscalars : (s.written.length + 1) * A ≤ total s.loaded + D * A := by
      rw [Nat.add_mul, Nat.one_mul]
      omega
    have hdiv := Nat.div_le_div_right (c := A) hscalars
    rw [Nat.mul_div_cancel _ hA, Nat.add_mul_div_right _ _ hA] at hdiv
    omega
  simp only [next, hstoring]
  refine ⟨?_, ?_, ?_, h.consumer, h.loading, h.positive, ?_, h.length, ?_, ?_, ?_⟩
  · simp only [h.enqueued, hstoring, List.map_cons, List.append_assoc, List.cons_append,
      List.nil_append]
  · simp only [List.length_append, List.length_singleton, hproducer]
    congr 1
    omega
  · simpa using hrest
  · rw [hindex]
    exact h.holds.write hroom values
  · intro i v hv
    have hscalar := h.dequeued i v hv
    have hlt := (List.getElem?_eq_some_iff.mp hscalar).1
    rw [scalars_append, List.getElem?_append_left hlt]
    exact hscalar
  · simp only [List.length_append, List.length_singleton, Nat.add_mul, Nat.one_mul]
    omega
  · simp only [inTransit, Nat.add_mul, Nat.one_mul]
    omega

/-- A dequeue call reads the scalar behind those that were read or discarded. -/
theorem Inv.dequeueLoad (hA : 0 < A) (h : Inv s) (unknown : Vector T A)
    (he : Enabled eb db s (.dequeueLoad unknown)) : Inv (next eb db s (.dequeueLoad unknown)) := by
  have hcount := h.count
  have hcredits := h.credits
  have hlt := h.loading_lt he
  obtain ⟨⟨index, c⟩, rest, hloading⟩ := List.exists_cons_of_ne_nil he
  have hpointers := h.loading
  rw [hloading] at hpointers
  obtain ⟨hindex, hpointers⟩ := hpointers
  have hconsumer := h.consumer
  simp only [inTransit, hloading, List.map_cons, total_cons] at hcount hcredits hconsumer
  -- The pointer names the array and the place in it of the next scalar.
  have hrow : index.toNat / A = (total s.loaded / A) % D := by
    rw [hindex, Nat.mul_comm D A, Nat.mod_mul_right_div_self]
  have hplace : index.toNat % A = total s.loaded % A := by
    rw [hindex, Nat.mod_mul_left_mod]
  have hwritten : total s.loaded / A < s.written.length := (Nat.div_lt_iff_lt_mul hA).mpr hlt
  have hget : s.written[total s.loaded / A]? = some s.written[total s.loaded / A] :=
    List.getElem?_eq_getElem hwritten
  have hmod : total s.loaded % A < A := Nat.mod_lt _ hA
  have hresult : (scalars s.written)[total s.loaded]? =
      some (arrayRead (s.dataMem.read (index.toNat / A) unknown) default (index.toNat % A)) := by
    rw [getElem?_scalars hA hget, hrow, hplace, h.holds _ _ unknown le_rfl hget,
      arrayRead_of_lt _ _ hmod, Vector.getElem?_eq_getElem hmod]
  have hsum : total s.loaded = (s.loaded.map (·.toNat)).sum := rfl
  simp only [next, hloading]
  refine ⟨h.enqueued, h.producer, h.storing, ?_, ?_, ?_, ?_, ?_, ?_, ?_, ?_⟩
  · simp only [total_append, total_cons, total_nil, hconsumer]
    congr 1
    omega
  · simpa using hpointers
  · intro c' hc'
    refine h.positive c' ?_
    rw [hloading, List.map_cons, List.cons_append]
    exact List.mem_cons_of_mem _ hc'
  · refine h.holds.mono (Nat.div_le_div_right ?_)
    simp
  · simp only [List.length_append, List.length_singleton, h.length]
  · intro i v hv
    rcases Nat.lt_or_ge i s.dequeued.length with hi | hi
    · rw [List.getElem?_append_left hi] at hv
      have htake : ((s.loaded ++ [c]).map (·.toNat)).take i = (s.loaded.map (·.toNat)).take i := by
        rw [List.map_append, List.take_append_of_le_length]
        rw [List.length_map, ← h.length]
        exact hi.le
      rw [htake]
      exact h.dequeued i v hv
    · rw [List.getElem?_append_right hi] at hv
      have hzero : i - s.dequeued.length = 0 := by
        have := (List.getElem?_eq_some_iff.mp hv).1
        simpa using this
      rw [hzero, List.getElem?_cons_zero, Option.some.injEq] at hv
      have hi' : i = (s.loaded.map (·.toNat)).length := by
        rw [List.length_map, ← h.length]
        omega
      rw [List.map_append, List.take_append_of_le_length hi'.le, hi', List.take_length, ← hsum,
        hresult, hv]
  · simp only [total_append, total_cons, total_nil]
    omega
  · simp only [inTransit, total_append, total_cons, total_nil]
    omega

theorem Inv.posts (hD : 0 < D) (h : Inv s) :
    (Enabled eb db s .enqueuePost →
      asserts eb db s .enqueuePost = true ∧ Inv (next eb db s .enqueuePost)) ∧
    (Enabled eb db s .dequeuePost →
      asserts eb db s .dequeuePost = true ∧ Inv (next eb db s .dequeuePost)) := by
  have hcount := h.count
  have hcredits := h.credits
  constructor
  · intro he
    have hpos : 0 < s.posting := he
    obtain ⟨posting, hposting⟩ : ∃ p, s.posting = p + 1 := ⟨s.posting - 1, by omega⟩
    have harray := toNat_ofNat_arraySize (A := A) hD
    simp only [inTransit, hposting, Nat.add_mul, Nat.one_mul] at hcount hcredits
    have hle : s.readSemaphore.count.toNat + (BitVec.ofNat (countWidth (D * A)) A).toNat ≤
        D * A := by
      rw [harray]
      omega
    have hpost := Semaphore.toNat_count_postMultiple hle
    rw [harray] at hpost
    refine ⟨Semaphore.postMultipleAssert_of_le hle, ?_⟩
    refine ⟨h.enqueued, h.producer, h.storing, h.consumer, h.loading, h.positive, h.holds,
      h.length, h.dequeued, ?_, ?_⟩
    · simp only [next, hpost, hposting, Nat.add_sub_cancel]
      omega
    · simp only [next, inTransit, hpost, hposting, Nat.add_sub_cancel, Nat.add_mul]
      omega
  · intro he
    obtain ⟨c, rest, hposting⟩ := List.exists_cons_of_ne_nil he
    have hval := toNat_setWidth_count hD c
    simp only [inTransit, hposting, total_cons] at hcount
    have hle : s.writeSemaphore.count.toNat +
        (c.setWidth (countWidth (D * A))).toNat ≤ D * A := by
      rw [hval]
      omega
    have hpost := Semaphore.toNat_count_postMultiple hle
    rw [hval] at hpost
    have hassert := Semaphore.postMultipleAssert_of_le hle
    refine ⟨by simpa [asserts, hposting] using hassert, ?_⟩
    simp only [next, hposting]
    refine ⟨h.enqueued, h.producer, h.storing, h.consumer, h.loading, h.positive, h.holds,
      h.length, h.dequeued, h.credits, ?_⟩
    simp only [inTransit, hpost]
    omega

theorem Inv.claims (hD : PointerWraps D) (hDA : PointerWraps (D * A)) (h : Inv s) :
    (Enabled eb db s .enqueueClaim → Inv (next eb db s .enqueueClaim)) ∧
    (Enabled eb db s .dequeueClaim → Inv (next eb db s .dequeueClaim)) := by
  have hcount := h.count
  have hcredits := h.credits
  constructor
  · intro he
    obtain ⟨values, rest, hclaiming⟩ := List.exists_cons_of_ne_nil he
    simp only [next, hclaiming]
    refine ⟨?_, ?_, ?_, h.consumer, h.loading, h.positive, h.holds, h.length, h.dequeued,
      hcredits, ?_⟩
    · simp only [h.enqueued, hclaiming, List.map_append, List.map_cons, List.map_nil,
        List.append_assoc, List.cons_append, List.nil_append]
    · simp only [List.length_append, List.length_singleton]
      rw [hD.toNat_add h.producer, hD.toNat_one hD.one_lt, Nat.add_assoc]
    · simp only [List.map_append, List.length_append, List.length_singleton, List.map_cons,
        List.map_nil, tickets_append_one, h.storing, h.producer]
    · simp only [inTransit, hclaiming, List.length_append, List.length_cons, List.length_nil,
        Nat.add_mul] at hcount ⊢
      omega
  · intro he
    obtain ⟨c, rest, hclaiming⟩ := List.exists_cons_of_ne_nil he
    simp only [next, hclaiming]
    refine ⟨h.enqueued, h.producer, h.storing, ?_, h.loading.append_one h.consumer c, ?_,
      h.holds, h.length, h.dequeued, ?_, ?_⟩
    · -- The pointer type keeps the count modulo the number of scalars.
      have hmod : (BitVec.ofNat (indexWidth (D * A)) c.toNat).toNat = c.toNat % (D * A) := by
        rw [BitVec.toNat_ofNat, hDA]
      rw [hDA.toNat_add h.consumer, hmod, Nat.add_mod_mod]
      simp [Nat.add_assoc]
    · intro c' hc'
      refine h.positive c' ?_
      rw [hclaiming]
      simpa [or_assoc] using hc'
    · simp only [hclaiming, List.map_append, List.map_cons, List.map_nil, total_append,
        total_cons, total_nil] at hcredits ⊢
      omega
    · simp only [inTransit, hclaiming, List.map_append, List.map_cons, List.map_nil,
        total_append, total_cons, total_nil] at hcount ⊢
      omega

/-- The count of a dequeue call fits its type: with arrays of one scalar no scalar is discarded. -/
def Counted : Event T A → Prop
  | .dequeueWait discardCount => A = 1 → discardCount = 0
  | _ => True

omit [Inhabited T] in
theorem Counted.le {a : Nat} (hA : A = 2 ^ a) {d : BitVec (indexWidth A)}
    (h : Counted (T := T) (.dequeueWait d)) : d.toNat + 1 ≤ A := by
  by_cases hone : A = 1
  · rw [h hone]
    simp [hone]
  · have hpos : 0 < a := Nat.pos_of_ne_zero fun h0 => hone (by rw [hA, h0, Nat.pow_zero])
    have hwraps : PointerWraps A := hA ▸ pointerWraps_two_pow hpos
    have hlt := d.isLt
    rw [hwraps] at hlt
    exact hlt

theorem Inv.step {a d : Nat} (hA : A = 2 ^ a) (hD : D = 2 ^ d) (hd : 0 < d) (h : Inv s)
    (e : Event T A) (hcounted : Counted e) (he : Enabled eb db s e) :
    asserts eb db s e = true ∧ Inv (next eb db s e) := by
  have hApos : 0 < A := hA ▸ Nat.two_pow_pos a
  have hDpos : 0 < D := hD ▸ Nat.two_pow_pos d
  have hDwraps : PointerWraps D := hD ▸ pointerWraps_two_pow hd
  have hDAwraps : PointerWraps (D * A) := by
    rw [hA, hD, ← Nat.pow_add]
    exact pointerWraps_two_pow (by omega)
  cases e with
  | enqueueWait values => exact h.enqueueWait hDpos values he
  | dequeueWait discardCount => exact h.dequeueWait hDpos (hcounted.le hA) he
  | enqueueClaim => exact ⟨rfl, (h.claims hDwraps hDAwraps).1 he⟩
  | dequeueClaim => exact ⟨rfl, (h.claims hDwraps hDAwraps).2 he⟩
  | enqueueStore => exact ⟨rfl, h.enqueueStore hApos he⟩
  | dequeueLoad unknown => exact ⟨rfl, h.dequeueLoad hApos unknown he⟩
  | enqueuePost => exact (h.posts hDpos).1 he
  | dequeuePost => exact (h.posts hDpos).2 he

theorem invariant {a d : Nat} (hA : A = 2 ^ a) (hD : D = 2 ^ d) (hd : 0 < d)
    (dataMem : Memory (Vector T A) D) :
    ((system eb db dataMem).restrict Counted).Invariant Inv where
  start := by
    have hzero : (Semaphore.initial (D * A) 0).count.toNat = 0 :=
      Semaphore.toNat_count_initial (Nat.zero_le _)
    have hfull : (Semaphore.initial (D * A) (D * A)).count.toNat = D * A :=
      Semaphore.toNat_count_initial le_rfl
    refine ⟨rfl, ?_, rfl, ?_, trivial, ?_, ?_, rfl, ?_, ?_, ?_⟩
    · simp [System.restrict, system]
    · simp [System.restrict, system]
    · intro c hc
      exact absurd hc List.not_mem_nil
    · intro k v u _ hv
      exact absurd hv (by simp [System.restrict, system])
    · intro i v hv
      exact absurd hv (by simp [System.restrict, system])
    · simp [System.restrict, system, hzero]
    · simp [System.restrict, system, hzero, hfull, inTransit]
  step s e h he := (h.step hA hD hd e he.2 he.1).2

end WideFifo

/-! ## All of the FIFOs -/

/-- The FIFOs of the library are queues when their memories have at least two entries and no call
discards a scalar of arrays of one scalar. -/
theorem fifos_isQueue (T : Type) [Inhabited T] (k a : Nat) (hk : 0 < k) :
    (∀ (eb db : Bool) (dataMem : Memory T (2 ^ k)) (s : Fifo T (2 ^ k)),
      (Fifo.system eb db dataMem).Reachable s →
      s.IsQueue ∧ ∀ e, s.Enabled eb db e → s.asserts eb db e = true) ∧
    (∀ (db : Bool) (dataMem : Memory T (2 ^ k)) (s : StoreAndForward T (2 ^ k)),
      (StoreAndForward.system db dataMem).Reachable s →
      s.IsQueue ∧ ∀ e, s.Enabled db e → s.asserts db e = true) ∧
    (∀ (dataMem : Memory T (2 ^ k)) (s : FifoNb T (2 ^ k)),
      (FifoNb.system dataMem).Reachable s →
      s.IsQueue ∧ ∀ e, s.Enabled e → s.asserts e = true) ∧
    (∀ (eb db : Bool) (dataMem : Memory (Vector T (2 ^ a)) (2 ^ k))
        (s : WideFifo T (2 ^ a) (2 ^ k)),
      ((WideFifo.system eb db dataMem).restrict WideFifo.Counted).Reachable s →
      s.IsQueue ∧ ∀ e, WideFifo.Counted e → s.Enabled eb db e → s.asserts eb db e = true) := by
  have hwraps : PointerWraps (2 ^ k) := pointerWraps_two_pow hk
  refine ⟨?_, ?_, ?_, ?_⟩
  · intro eb db dataMem s hs
    have h := (Fifo.invariant hwraps dataMem).of_reachable hs
    exact ⟨h.isQueue, fun e he => (h.step hwraps e he).1⟩
  · intro db dataMem s hs
    have h := (StoreAndForward.invariant hwraps dataMem).of_reachable hs
    exact ⟨h.isQueue, fun e he => (h.step hwraps e he).1⟩
  · intro dataMem s hs
    have h := (FifoNb.invariant hwraps dataMem).of_reachable hs
    exact ⟨h.isQueue, fun e he => (h.step hwraps e he).1⟩
  · intro eb db dataMem s hs
    have h := (WideFifo.invariant rfl rfl hk dataMem).of_reachable hs
    exact ⟨h.isQueue, fun e hcounted he => (h.step rfl rfl hk e hcounted he).1⟩

/-- Calls on FIFOs with two entries. -/
theorem fifos_isQueue_two_entries :
    ((Fifo.system true true #v[9, 9]).run { ring := { dataMem := #v[9, 9] } }
      [.enqueueWait 5, .enqueueClaim, .enqueueWait 7, .enqueueStore, .enqueuePost,
        .dequeueWait, .dequeueClaim, .dequeueLoad 0, .dequeuePost, .enqueueClaim]).IsQueue ∧
    ((StoreAndForward.system true #v[9, 9]).run { ring := { dataMem := #v[9, 9] } }
      [.enqueueWait 5 true]).IsQueue ∧
    ((FifoNb.system #v[9, 9]).run { ring := { dataMem := #v[9, 9] } }
      [.checkAndReserve]).IsQueue ∧
    (((WideFifo.system true true #v[#v[9, 9], #v[9, 9]]).restrict WideFifo.Counted).run
      { dataMem := #v[#v[9, 9], #v[9, 9]] } [.enqueueWait #v[5, 7], .dequeueWait 1#1]).IsQueue := by
  obtain ⟨hfifo, hforward, hnb, hwide⟩ := fifos_isQueue Nat 1 1 (by decide)
  refine ⟨(hfifo true true #v[9, 9] _ (.run .start ?_)).1,
    (hforward true #v[9, 9] _ (.run .start ?_)).1, (hnb #v[9, 9] _ (.run .start ?_)).1,
    (hwide true true #v[#v[9, 9], #v[9, 9]] _ (.run .start ?_)).1⟩
  · decide +kernel
  · exact ⟨trivial, trivial⟩
  · exact ⟨trivial, trivial⟩
  · exact ⟨⟨.inl rfl, trivial⟩, ⟨.inl rfl, fun h => absurd h (by decide)⟩, trivial⟩

/-- A FIFO with one entry loses the second element, as its pointers have one bit. A dequeue call
that discards a scalar of arrays of one scalar waits for no scalar at all. -/
theorem fifos_not_isQueue :
    (∃ s, (Fifo.system true true (#v[9] : Memory Nat (2 ^ 0))).Reachable s ∧
      ¬ s.ring.dequeued <+: s.enqueued) ∧
    (∃ s, (WideFifo.system true true
        (#v[#v[9], #v[9]] : Memory (Vector Nat (2 ^ 0)) (2 ^ 1))).Reachable s ∧
      ¬ s.dequeued <+: kept s.counts (scalars s.enqueued)) := by
  constructor
  · refine ⟨(Fifo.system true true #v[9]).run { ring := { dataMem := #v[9] } }
      [.enqueueWait 5, .enqueueClaim, .enqueueStore, .enqueuePost,
        .dequeueWait, .dequeueClaim, .dequeueLoad 0, .dequeuePost,
        .enqueueWait 7, .enqueueClaim, .enqueueStore, .enqueuePost,
        .dequeueWait, .dequeueClaim, .dequeueLoad 0], .run .start ?_, ?_⟩
    · decide +kernel
    · decide +kernel
  · refine ⟨(WideFifo.system true true #v[#v[9], #v[9]]).run { dataMem := #v[#v[9], #v[9]] }
      [.dequeueWait 1#1, .dequeueClaim, .dequeueLoad #v[0]], .run .start ?_, ?_⟩
    · exact ⟨.inl rfl, List.cons_ne_nil _ _, List.cons_ne_nil _ _, trivial⟩
    · decide +kernel

end Kanagawa.Library
