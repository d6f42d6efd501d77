/-
  Kanagawa.Library.Fifo

  The FIFOs of `data/fifo.k` are queues when they have at least two entries.

  Each step of a call is one event: the update of a semaphore or a counter, the
  increment of a pointer, the access to the memory.  Calls of one method pass
  each step in call order, and otherwise the steps interleave in any way.
-/
import Kanagawa.Library.Lock
import Kanagawa.Library.Ring

namespace Kanagawa.Library

open Kanagawa.Runs

/-! ## FIFO -/

/-- `FIFO<T, Size>` with the calls in flight. -/
structure Fifo (T : Type) (size : Nat) where
  ring : Ring T T size
  /-- `_readSemaphore` -/
  readSemaphore : Semaphore size := Semaphore.initial size 0
  /-- `_writeSemaphore` -/
  writeSemaphore : Semaphore size := Semaphore.initial size size
  /-- Enqueue calls behind the wait, before they have a pointer. -/
  claiming : List T := []
  /-- Enqueue calls behind the memory, before the post. -/
  posting : Nat := 0
  /-- Dequeue calls behind the wait, before they have a pointer. -/
  dequeueClaiming : Nat := 0
  /-- Dequeue calls behind the memory, before the post. -/
  dequeuePosting : Nat := 0
  /-- The values of the enqueue calls behind the wait, in order. -/
  enqueued : List T := []

namespace Fifo

inductive Event (T : Type) where
  | enqueueWait (value : T)
  | enqueueClaim
  | enqueueStore
  | enqueuePost
  | dequeueWait
  | dequeueClaim
  | dequeueLoad (unknown : T)
  | dequeuePost

variable {T : Type} {size : Nat}

/-- The steps of `enqueue` and `dequeue`. A turn of a wait that does not return leaves the call
where it is. -/
def next (enqueueBlocking dequeueBlocking : Bool) (s : Fifo T size) : Event T → Fifo T size
  | .enqueueWait v =>
    let turn := s.writeSemaphore.waitMultiple enqueueBlocking 1#_
    let s := { s with writeSemaphore := turn.state }
    if turn.returns then { s with claiming := s.claiming ++ [v], enqueued := s.enqueued ++ [v] }
    else s
  | .enqueueClaim =>
    match s.claiming with
    | [] => s
    | v :: claiming => { s with ring := s.ring.claimStore v, claiming }
  | .enqueueStore => { s with ring := s.ring.store id, posting := s.posting + 1 }
  | .enqueuePost =>
    { s with readSemaphore := s.readSemaphore.post, posting := s.posting - 1 }
  | .dequeueWait =>
    let turn := s.readSemaphore.waitMultiple dequeueBlocking 1#_
    let s := { s with readSemaphore := turn.state }
    if turn.returns then { s with dequeueClaiming := s.dequeueClaiming + 1 } else s
  | .dequeueClaim =>
    { s with ring := s.ring.claimLoad, dequeueClaiming := s.dequeueClaiming - 1 }
  | .dequeueLoad unknown =>
    { s with ring := s.ring.load unknown, dequeuePosting := s.dequeuePosting + 1 }
  | .dequeuePost =>
    { s with writeSemaphore := s.writeSemaphore.post, dequeuePosting := s.dequeuePosting - 1 }

/-- The assertions of a step. -/
def asserts (enqueueBlocking dequeueBlocking : Bool) (s : Fifo T size) : Event T → Bool
  | .enqueueWait _ => (s.writeSemaphore.waitMultiple enqueueBlocking 1#_).asserts
  | .dequeueWait => (s.readSemaphore.waitMultiple dequeueBlocking 1#_).asserts
  | _ => true

/-- A step has a call that takes it, and the callers of non-blocking methods keep their promise
that the FIFO is not full, or not empty. -/
def Enabled (enqueueBlocking dequeueBlocking : Bool) (s : Fifo T size) : Event T → Prop
  | .enqueueWait _ => enqueueBlocking = true ∨ 1 ≤ s.writeSemaphore.count.toNat
  | .enqueueClaim => s.claiming ≠ []
  | .enqueueStore => s.ring.storing ≠ []
  | .enqueuePost => 0 < s.posting
  | .dequeueWait => dequeueBlocking = true ∨ 1 ≤ s.readSemaphore.count.toNat
  | .dequeueClaim => 0 < s.dequeueClaiming
  | .dequeueLoad _ => s.ring.loading ≠ []
  | .dequeuePost => 0 < s.dequeuePosting

instance (eb db : Bool) (s : Fifo T size) (e : Event T) : Decidable (Enabled eb db s e) :=
  match e with
  | .enqueueWait _ => inferInstanceAs (Decidable (_ ∨ _))
  | .enqueueClaim => inferInstanceAs (Decidable (s.claiming ≠ []))
  | .enqueueStore => inferInstanceAs (Decidable (s.ring.storing ≠ []))
  | .enqueuePost => inferInstanceAs (Decidable (0 < s.posting))
  | .dequeueWait => inferInstanceAs (Decidable (_ ∨ _))
  | .dequeueClaim => inferInstanceAs (Decidable (0 < s.dequeueClaiming))
  | .dequeueLoad _ => inferInstanceAs (Decidable (s.ring.loading ≠ []))
  | .dequeuePost => inferInstanceAs (Decidable (0 < s.dequeuePosting))

/-- Any number of calls, from a memory with any content. -/
def system (enqueueBlocking dequeueBlocking : Bool) (dataMem : Memory T size) :
    System (Fifo T size) (Event T) where
  start := { ring := { dataMem } }
  Enabled := Enabled enqueueBlocking dequeueBlocking
  next := next enqueueBlocking dequeueBlocking

instance (eb db : Bool) (dataMem : Memory T size) (s : Fifo T size) (e : Event T) :
    Decidable ((system eb db dataMem).Enabled s e) :=
  inferInstanceAs (Decidable (Enabled eb db s e))

/-- Elements whose credit a call holds: it has taken one semaphore and not posted the other. -/
def inTransit (s : Fifo T size) : Nat :=
  s.claiming.length + s.ring.storing.length + s.posting +
    s.dequeueClaiming + s.ring.loading.length + s.dequeuePosting

/-- The FIFO is a queue: its results are the first of the values enqueued, values that were
written and not read are in the memory, no call reads a value that is not written, and every
entry is accounted for. -/
structure IsQueue (s : Fifo T size) : Prop where
  dequeued : s.ring.dequeued <+: s.enqueued
  written : s.ring.written <+: s.enqueued
  holds : HoldsFrom s.ring.dataMem s.ring.written s.ring.dequeued.length
  loading : s.ring.loading ≠ [] → s.ring.dequeued.length < s.ring.written.length
  count : s.readSemaphore.count.toNat + s.writeSemaphore.count.toNat + s.inTransit = size

/-! ### The invariant -/

structure Inv (s : Fifo T size) : Prop where
  ring : s.ring.Inv id
  enqueued : s.enqueued = s.ring.written ++ s.ring.storing.map (·.1) ++ s.claiming
  /-- A value that was written is not posted yet, or it stands in the read semaphore, or a dequeue
  call has its credit, or it was read. -/
  written : s.ring.written.length = s.posting + s.readSemaphore.count.toNat + s.dequeueClaiming +
    s.ring.loading.length + s.ring.dequeued.length
  count : s.readSemaphore.count.toNat + s.writeSemaphore.count.toNat + s.inTransit = size

theorem Inv.isQueue {s : Fifo T size} (h : Inv s) : IsQueue s where
  dequeued := by
    rw [h.enqueued, List.append_assoc]
    exact (by simpa using h.ring.dequeued : s.ring.dequeued <+: s.ring.written).trans
      (List.prefix_append _ _)
  written := by
    rw [h.enqueued, List.append_assoc]
    exact List.prefix_append _ _
  holds := by simpa using h.ring.holds
  loading := fun hne => by
    have hpos := List.length_pos_iff.mpr hne
    have := h.written
    omega
  count := h.count

variable {eb db : Bool} {s : Fifo T size}

theorem Inv.enqueueWait (hsize : PointerWraps size) (h : Inv s) (v : T)
    (he : Enabled eb db s (.enqueueWait v)) :
    asserts eb db s (.enqueueWait v) = true ∧ Inv (next eb db s (.enqueueWait v)) := by
  have hcount := h.count
  obtain ⟨hassert, ⟨hreturns, hle, hstate⟩ | ⟨hreturns, hstate⟩⟩ :=
    Semaphore.wait_cases (s := s.writeSemaphore) hsize.pos (by omega) he
  · refine ⟨hassert, ?_⟩
    simp only [next, hreturns, if_true]
    refine ⟨h.ring, ?_, h.written, ?_⟩
    · simp only [h.enqueued, List.append_assoc]
    · simp only [inTransit, List.length_append, List.length_singleton] at hcount ⊢
      omega
  · refine ⟨hassert, ?_⟩
    simp only [next, hreturns, hstate, if_false, Bool.false_eq_true]
    exact h

theorem Inv.dequeueWait (hsize : PointerWraps size) (h : Inv s)
    (he : Enabled eb db s .dequeueWait) :
    asserts eb db s .dequeueWait = true ∧ Inv (next eb db s .dequeueWait) := by
  have hcount := h.count
  have hwritten := h.written
  obtain ⟨hassert, ⟨hreturns, hle, hstate⟩ | ⟨hreturns, hstate⟩⟩ :=
    Semaphore.wait_cases (s := s.readSemaphore) hsize.pos (by omega) he
  · refine ⟨hassert, ?_⟩
    simp only [next, hreturns, if_true]
    refine ⟨h.ring, h.enqueued, ?_, ?_⟩
    · simp only [hstate]
      omega
    · simp only [inTransit] at hcount ⊢
      omega
  · refine ⟨hassert, ?_⟩
    simp only [next, hreturns, hstate, if_false, Bool.false_eq_true]
    exact h

/-- A call stores its value: the entry it overwrites was read, as its caller holds a credit. -/
theorem Inv.enqueueStore (h : Inv s) (he : Enabled eb db s .enqueueStore) :
    Inv (next eb db s .enqueueStore) := by
  have hcount := h.count
  have hwritten := h.written
  obtain ⟨⟨v, index⟩, rest, hstoring⟩ := List.exists_cons_of_ne_nil he
  have hlength : s.ring.storing.length = rest.length + 1 := by rw [hstoring, List.length_cons]
  simp only [inTransit] at hcount
  have hring := h.ring.store hstoring (by omega)
  refine ⟨hring, ?_, ?_, ?_⟩
  · simp only [next, Ring.store, hstoring, h.enqueued, List.map_cons, List.append_assoc,
      List.cons_append, List.nil_append]
  · simp only [next, Ring.store, hstoring, List.length_append, List.length_singleton]
    omega
  · simp only [next, Ring.store, hstoring, inTransit]
    omega

/-- A call reads its result: the entry was written, as its credit was posted. -/
theorem Inv.dequeueLoad (h : Inv s) (unknown : T) (he : Enabled eb db s (.dequeueLoad unknown)) :
    Inv (next eb db s (.dequeueLoad unknown)) := by
  have hcount := h.count
  have hwritten := h.written
  obtain ⟨index, rest, hloading⟩ := List.exists_cons_of_ne_nil he
  have hlength : s.ring.loading.length = rest.length + 1 := by rw [hloading, List.length_cons]
  simp only [inTransit] at hcount
  have hring := h.ring.load hloading (by omega) unknown
  refine ⟨hring, ?_, ?_, ?_⟩
  · simp only [next, Ring.load, hloading, h.enqueued]
  · simp only [next, Ring.load, hloading, List.length_append, List.length_singleton]
    omega
  · simp only [next, Ring.load, hloading, inTransit]
    omega

theorem Inv.step (hsize : PointerWraps size) (h : Inv s) (e : Event T) (he : Enabled eb db s e) :
    asserts eb db s e = true ∧ Inv (next eb db s e) := by
  have hcount := h.count
  have hwritten := h.written
  cases e with
  | enqueueWait v => exact h.enqueueWait hsize v he
  | dequeueWait => exact h.dequeueWait hsize he
  | enqueueStore => exact ⟨rfl, h.enqueueStore he⟩
  | dequeueLoad unknown => exact ⟨rfl, h.dequeueLoad unknown he⟩
  | enqueueClaim =>
    obtain ⟨v, rest, hclaiming⟩ := List.exists_cons_of_ne_nil he
    refine ⟨rfl, ?_⟩
    simp only [next, hclaiming]
    refine ⟨h.ring.claimStore hsize v, ?_, hwritten, ?_⟩
    · simp only [Ring.claimStore, h.enqueued, hclaiming, List.map_append, List.map_cons,
        List.map_nil, List.append_assoc, List.cons_append, List.nil_append]
    · simp only [inTransit, Ring.claimStore, hclaiming, List.length_append, List.length_cons,
        List.length_nil] at hcount ⊢
      omega
  | dequeueClaim =>
    have hpos : 0 < s.dequeueClaiming := he
    refine ⟨rfl, h.ring.claimLoad hsize, h.enqueued, ?_, ?_⟩
    · simp only [next, Ring.claimLoad, List.length_append, List.length_singleton]
      omega
    · simp only [next, inTransit, Ring.claimLoad, List.length_append,
        List.length_singleton] at hcount ⊢
      omega
  | enqueuePost =>
    have hpos : 0 < s.posting := he
    simp only [inTransit] at hcount
    have hpost := Semaphore.toNat_count_post (s := s.readSemaphore) (by omega)
    refine ⟨rfl, h.ring, h.enqueued, ?_, ?_⟩
    · simp only [next, hpost]
      omega
    · simp only [next, inTransit, hpost]
      omega
  | dequeuePost =>
    have hpos : 0 < s.dequeuePosting := he
    simp only [inTransit] at hcount
    have hpost := Semaphore.toNat_count_post (s := s.writeSemaphore) (by omega)
    refine ⟨rfl, h.ring, h.enqueued, hwritten, ?_⟩
    simp only [next, inTransit, hpost]
    omega

theorem invariant (hsize : PointerWraps size) (dataMem : Memory T size) :
    (system eb db dataMem).Invariant Inv where
  start := by
    refine ⟨Ring.Inv.start dataMem, rfl, ?_, ?_⟩
    · simp [system, Semaphore.toNat_count_initial]
    · simp [system, Semaphore.toNat_count_initial, inTransit]
  step s e h he := (h.step hsize e he).2

end Fifo

/-! ## Store and forward -/

/-- How many elements the calls with these release flags have released: all of them up to the last
call with the flag set. -/
def released (flags : List Bool) : Nat := (flags.reverse.dropWhile (!·)).length

theorem released_nil : released [] = 0 := rfl

theorem released_append_true (flags : List Bool) :
    released (flags ++ [true]) = flags.length + 1 := by
  simp [released]

theorem released_append_false (flags : List Bool) :
    released (flags ++ [false]) = released flags := by
  simp [released]

/-- An element is released by a call that is not earlier than its own. -/
theorem exists_release {flags : List Bool} {k : Nat} (hk : k < released flags) :
    ∃ j, k ≤ j ∧ flags[j]? = some true := by
  induction flags using List.reverseRecOn with
  | nil => exact absurd hk (by simp [released])
  | append_singleton flags flag ih =>
    cases flag with
    | true =>
      rw [released_append_true] at hk
      exact ⟨flags.length, by omega, by simp⟩
    | false =>
      rw [released_append_false] at hk
      obtain ⟨j, hj, hflag⟩ := ih hk
      refine ⟨j, hj, ?_⟩
      rw [List.getElem?_append_left (List.getElem?_eq_some_iff.mp hflag).1]
      exact hflag

/-- `FIFO_store_and_forward<T, Size>` with the calls in flight. An enqueue call is its value with
its release flag. -/
structure StoreAndForward (T : Type) (size : Nat) where
  ring : Ring (T × Bool) T size
  /-- `_deferredDequeueCount` -/
  deferredDequeueCount : BitVec (countWidth size) := 0#_
  /-- `_readSemaphore` -/
  readSemaphore : Semaphore size := Semaphore.initial size 0
  /-- `_writeSemaphore` -/
  writeSemaphore : Semaphore size := Semaphore.initial size size
  /-- Enqueue calls behind the wait, before they have a pointer. -/
  claiming : List (T × Bool) := []
  /-- Enqueue calls behind the memory, before the atomic block. -/
  snapping : List Bool := []
  /-- Enqueue calls with their `snappedDeferredDequeueCount`, before the post. -/
  posting : List (Bool × BitVec (countWidth size)) := []
  /-- Dequeue calls behind the wait, before they have a pointer. -/
  dequeueClaiming : Nat := 0
  /-- Dequeue calls behind the memory, before the post. -/
  dequeuePosting : Nat := 0
  /-- The enqueue calls behind the wait, in order. -/
  enqueued : List (T × Bool) := []
  /-- The flags of the enqueue calls behind the post, in order. -/
  posted : List Bool := []

namespace StoreAndForward

inductive Event (T : Type) where
  | enqueueWait (value : T) (releaseDeferredDequeues : Bool)
  | enqueueClaim
  | enqueueStore
  | enqueueSnap
  | enqueuePost
  | dequeueWait
  | dequeueClaim
  | dequeueLoad (unknown : T)
  | dequeuePost

variable {T : Type} {size : Nat}

/-- The atomic block of `enqueue`: what it snaps, and the count it leaves. -/
def snap (deferred : BitVec (countWidth size)) (releaseDeferredDequeues : Bool) :
    BitVec (countWidth size) × BitVec (countWidth size) :=
  if releaseDeferredDequeues then (deferred + 1#_, 0#_) else (0#_, deferred + 1#_)

/-- The assertion of the atomic block. -/
def snapAssert (deferred : BitVec (countWidth size)) (releaseDeferredDequeues : Bool) : Bool :=
  releaseDeferredDequeues || decide (deferred.toNat < 2 ^ countWidth size - 1)

/-- The steps of `enqueue`, which always blocks, and of `dequeue`. -/
def next (dequeueBlocking : Bool) (s : StoreAndForward T size) :
    Event T → StoreAndForward T size
  | .enqueueWait v release =>
    let turn := s.writeSemaphore.waitMultiple true 1#_
    let s := { s with writeSemaphore := turn.state }
    if turn.returns then
      { s with claiming := s.claiming ++ [(v, release)], enqueued := s.enqueued ++ [(v, release)] }
    else s
  | .enqueueClaim =>
    match s.claiming with
    | [] => s
    | call :: claiming => { s with ring := s.ring.claimStore call, claiming }
  | .enqueueStore =>
    { s with ring := s.ring.store Prod.fst
             snapping := s.snapping ++ (s.ring.storing.head?.map (·.1.2)).toList }
  | .enqueueSnap =>
    match s.snapping with
    | [] => s
    | release :: snapping =>
      let (snapped, deferred) := snap s.deferredDequeueCount release
      { s with snapping, posting := s.posting ++ [(release, snapped)]
               deferredDequeueCount := deferred }
  | .enqueuePost =>
    match s.posting with
    | [] => s
    | (release, snapped) :: posting =>
      { s with posting, readSemaphore := s.readSemaphore.postMultiple snapped
               posted := s.posted ++ [release] }
  | .dequeueWait =>
    let turn := s.readSemaphore.waitMultiple dequeueBlocking 1#_
    let s := { s with readSemaphore := turn.state }
    if turn.returns then { s with dequeueClaiming := s.dequeueClaiming + 1 } else s
  | .dequeueClaim =>
    { s with ring := s.ring.claimLoad, dequeueClaiming := s.dequeueClaiming - 1 }
  | .dequeueLoad unknown =>
    { s with ring := s.ring.load unknown, dequeuePosting := s.dequeuePosting + 1 }
  | .dequeuePost =>
    { s with writeSemaphore := s.writeSemaphore.post, dequeuePosting := s.dequeuePosting - 1 }

/-- The assertions of a step. -/
def asserts (dequeueBlocking : Bool) (s : StoreAndForward T size) : Event T → Bool
  | .enqueueWait _ _ => (s.writeSemaphore.waitMultiple true 1#_).asserts
  | .enqueueSnap => s.snapping.head?.all (snapAssert s.deferredDequeueCount)
  | .enqueuePost => s.posting.head?.all (fun call => s.readSemaphore.postMultipleAssert call.2)
  | .dequeueWait => (s.readSemaphore.waitMultiple dequeueBlocking 1#_).asserts
  | _ => true

/-- A step has a call that takes it, and the callers of a non-blocking `dequeue` keep their promise
that the FIFO is not empty. -/
def Enabled (dequeueBlocking : Bool) (s : StoreAndForward T size) : Event T → Prop
  | .enqueueWait _ _ => True
  | .enqueueClaim => s.claiming ≠ []
  | .enqueueStore => s.ring.storing ≠ []
  | .enqueueSnap => s.snapping ≠ []
  | .enqueuePost => s.posting ≠ []
  | .dequeueWait => dequeueBlocking = true ∨ 1 ≤ s.readSemaphore.count.toNat
  | .dequeueClaim => 0 < s.dequeueClaiming
  | .dequeueLoad _ => s.ring.loading ≠ []
  | .dequeuePost => 0 < s.dequeuePosting

/-- Any number of calls, from a memory with any content. -/
def system (dequeueBlocking : Bool) (dataMem : Memory T size) :
    System (StoreAndForward T size) (Event T) where
  start := { ring := { dataMem } }
  Enabled := Enabled dequeueBlocking
  next := next dequeueBlocking

/-- Elements whose credit a call holds, and those that are deferred. -/
def inTransit (s : StoreAndForward T size) : Nat :=
  s.claiming.length + s.ring.storing.length + s.snapping.length + s.deferredDequeueCount.toNat +
    (s.posting.map (·.2.toNat)).sum +
    s.dequeueClaiming + s.ring.loading.length + s.dequeuePosting

/-- The FIFO is a queue, and an element is dequeued only after the post of a call with the flag
set that is not earlier than its own. -/
structure IsQueue (s : StoreAndForward T size) : Prop where
  dequeued : s.ring.dequeued <+: s.enqueued.map (·.1)
  written : s.ring.written <+: s.enqueued
  holds : HoldsFrom s.ring.dataMem (s.ring.written.map (·.1)) s.ring.dequeued.length
  loading : s.ring.loading ≠ [] → s.ring.dequeued.length < s.ring.written.length
  posted : s.posted <+: s.enqueued.map (·.2)
  releases : ∀ k < s.ring.dequeued.length, ∃ j, k ≤ j ∧ s.posted[j]? = some true
  count : s.readSemaphore.count.toNat + s.writeSemaphore.count.toNat + s.inTransit = size

/-! ### The invariant -/

/-- Each call between the atomic block and the post has snapped what it releases. -/
def Snapped : List Bool → List (Bool × BitVec (countWidth size)) → Prop
  | _, [] => True
  | flags, (release, amount) :: rest =>
    released (flags ++ [release]) = released flags + amount.toNat ∧
      Snapped (flags ++ [release]) rest

theorem Snapped.append_one {flags : List Bool} {calls : List (Bool × BitVec (countWidth size))}
    (h : Snapped flags calls) {release : Bool} {amount : BitVec (countWidth size)}
    (hcall : released (flags ++ calls.map (·.1) ++ [release]) =
      released (flags ++ calls.map (·.1)) + amount.toNat) :
    Snapped flags (calls ++ [(release, amount)]) := by
  induction calls generalizing flags with
  | nil => exact ⟨by simpa using hcall, trivial⟩
  | cons call calls ih =>
    refine ⟨h.1, ih h.2 ?_⟩
    simpa using hcall

theorem Snapped.released_eq {flags : List Bool} {calls : List (Bool × BitVec (countWidth size))}
    (h : Snapped flags calls) :
    released (flags ++ calls.map (·.1)) = released flags + (calls.map (·.2.toNat)).sum := by
  induction calls generalizing flags with
  | nil => simp
  | cons call calls ih =>
    have hrest := ih h.2
    have hcall := h.1
    simp only [List.map_cons, List.sum_cons, List.append_assoc, List.cons_append,
      List.nil_append] at hrest ⊢
    omega

structure Inv (s : StoreAndForward T size) : Prop where
  ring : s.ring.Inv Prod.fst
  enqueued : s.enqueued = s.ring.written ++ s.ring.storing.map (·.1) ++ s.claiming
  flags : s.ring.written.map (·.2) = s.posted ++ s.posting.map (·.1) ++ s.snapping
  snapped : Snapped s.posted s.posting
  /-- What the calls behind the atomic block have not released is deferred. -/
  deferred : s.deferredDequeueCount.toNat + released (s.posted ++ s.posting.map (·.1)) =
    (s.posted ++ s.posting.map (·.1)).length
  /-- What was released by posts stands in the read semaphore, or a dequeue call has its credit,
  or it was read. -/
  credits : released s.posted = s.readSemaphore.count.toNat + s.dequeueClaiming +
    s.ring.loading.length + s.ring.dequeued.length
  count : s.readSemaphore.count.toNat + s.writeSemaphore.count.toNat + s.inTransit = size

/-- What was written and not read is in transit, or it stands in the read semaphore. -/
theorem Inv.written {s : StoreAndForward T size} (h : Inv s) :
    s.ring.written.length = s.ring.dequeued.length + s.readSemaphore.count.toNat +
      s.dequeueClaiming + s.ring.loading.length + (s.posting.map (·.2.toNat)).sum +
      s.deferredDequeueCount.toNat + s.snapping.length := by
  have hlength := congrArg List.length h.flags
  have hdeferred := h.deferred
  have hcredits := h.credits
  have hsum := h.snapped.released_eq
  simp only [List.length_map, List.length_append] at hlength hdeferred
  omega

theorem Inv.isQueue {s : StoreAndForward T size} (h : Inv s) : IsQueue s where
  dequeued := by
    rw [h.enqueued, List.append_assoc, List.map_append]
    exact h.ring.dequeued.trans (List.prefix_append _ _)
  written := by
    rw [h.enqueued, List.append_assoc]
    exact List.prefix_append _ _
  holds := h.ring.holds
  loading := fun hne => by
    have hpos := List.length_pos_iff.mpr hne
    have := h.written
    omega
  posted := by
    rw [h.enqueued, List.append_assoc, List.map_append, h.flags, List.append_assoc,
      List.append_assoc]
    exact List.prefix_append _ _
  releases := fun k hk => by
    have hcredits := h.credits
    exact exists_release (by omega)
  count := h.count

variable {db : Bool} {s : StoreAndForward T size}

theorem Inv.enqueueWait (hsize : PointerWraps size) (h : Inv s) (v : T) (release : Bool) :
    asserts db s (.enqueueWait v release) = true ∧ Inv (next db s (.enqueueWait v release)) := by
  have hcount := h.count
  obtain ⟨hassert, ⟨hreturns, hle, hstate⟩ | ⟨hreturns, hstate⟩⟩ :=
    Semaphore.wait_cases (s := s.writeSemaphore) hsize.pos (by omega) (.inl rfl)
  · refine ⟨hassert, ?_⟩
    simp only [next, hreturns, if_true]
    refine ⟨h.ring, ?_, h.flags, h.snapped, h.deferred, h.credits, ?_⟩
    · simp only [h.enqueued, List.append_assoc]
    · simp only [inTransit, List.length_append, List.length_singleton] at hcount ⊢
      omega
  · refine ⟨hassert, ?_⟩
    simp only [next, hreturns, hstate, if_false, Bool.false_eq_true]
    exact h

theorem Inv.dequeueWait (hsize : PointerWraps size) (h : Inv s)
    (he : Enabled db s .dequeueWait) :
    asserts db s .dequeueWait = true ∧ Inv (next db s .dequeueWait) := by
  have hcount := h.count
  have hcredits := h.credits
  obtain ⟨hassert, ⟨hreturns, hle, hstate⟩ | ⟨hreturns, hstate⟩⟩ :=
    Semaphore.wait_cases (s := s.readSemaphore) hsize.pos (by omega) he
  · refine ⟨hassert, ?_⟩
    simp only [next, hreturns, if_true]
    refine ⟨h.ring, h.enqueued, h.flags, h.snapped, h.deferred, ?_, ?_⟩
    · simp only [hstate]
      omega
    · simp only [inTransit] at hcount ⊢
      omega
  · refine ⟨hassert, ?_⟩
    simp only [next, hreturns, hstate, if_false, Bool.false_eq_true]
    exact h

theorem Inv.enqueueStore (h : Inv s) (he : Enabled db s .enqueueStore) :
    Inv (next db s .enqueueStore) := by
  have hcount := h.count
  have hwritten := h.written
  obtain ⟨⟨⟨v, release⟩, index⟩, rest, hstoring⟩ := List.exists_cons_of_ne_nil he
  have hlength : s.ring.storing.length = rest.length + 1 := by rw [hstoring, List.length_cons]
  simp only [inTransit] at hcount
  have hring := h.ring.store hstoring (by omega)
  refine ⟨hring, ?_, ?_, h.snapped, h.deferred, ?_, ?_⟩
  · simp only [next, Ring.store, hstoring, h.enqueued, List.map_cons, List.append_assoc,
      List.cons_append, List.nil_append]
  · simp only [next, Ring.store, hstoring, List.map_append, h.flags, List.map_cons, List.map_nil,
      List.head?_cons, Option.map_some, Option.toList_some, List.append_assoc]
  · simp only [next, Ring.store, hstoring]
    exact h.credits
  · simp only [next, Ring.store, hstoring, inTransit, List.head?_cons, Option.map_some,
      Option.toList_some, List.length_append, List.length_singleton]
    omega

theorem Inv.dequeueLoad (h : Inv s) (unknown : T) (he : Enabled db s (.dequeueLoad unknown)) :
    Inv (next db s (.dequeueLoad unknown)) := by
  have hcount := h.count
  have hwritten := h.written
  have hcredits := h.credits
  obtain ⟨index, rest, hloading⟩ := List.exists_cons_of_ne_nil he
  have hlength : s.ring.loading.length = rest.length + 1 := by rw [hloading, List.length_cons]
  simp only [inTransit] at hcount
  have hring := h.ring.load hloading (by omega) unknown
  refine ⟨hring, ?_, ?_, h.snapped, h.deferred, ?_, ?_⟩
  · simp only [next, Ring.load, hloading, h.enqueued]
  · simp only [next, Ring.load, hloading, h.flags]
  · simp only [next, Ring.load, hloading, List.length_append, List.length_singleton]
    omega
  · simp only [next, Ring.load, hloading, inTransit]
    omega

/-- The atomic block releases the deferred elements with its own, or defers its own. -/
theorem Inv.enqueueSnap (h : Inv s) (he : Enabled db s .enqueueSnap) :
    asserts db s .enqueueSnap = true ∧ Inv (next db s .enqueueSnap) := by
  have hcount := h.count
  have hlt := lt_two_pow_countWidth size
  obtain ⟨release, rest, hsnapping⟩ := List.exists_cons_of_ne_nil he
  have hlength : s.snapping.length = rest.length + 1 := by rw [hsnapping, List.length_cons]
  have hdeferred := h.deferred
  simp only [inTransit] at hcount
  -- The element of this call is in transit too, so that the count does not overflow.
  have hnext : (s.deferredDequeueCount + 1#_).toNat = s.deferredDequeueCount.toNat + 1 := by
    rw [BitVec.toNat_add, Counter.toNat_one (by omega), Nat.mod_eq_of_lt (by omega)]
  constructor
  · simp only [asserts, hsnapping, List.head?_cons, Option.all_some, snapAssert, Bool.or_eq_true,
      decide_eq_true_eq]
    omega
  · simp only [next, hsnapping, snap]
    have hflags : s.ring.written.map (·.2) =
        s.posted ++ (s.posting ++ [(release, (snap s.deferredDequeueCount release).1)]).map (·.1) ++
          rest := by
      rw [h.flags, hsnapping]
      simp only [List.map_append, List.map_cons, List.map_nil, List.append_assoc,
        List.cons_append, List.nil_append]
    cases release with
    | true =>
      have hall := released_append_true (s.posted ++ s.posting.map (·.1))
      refine ⟨h.ring, h.enqueued, hflags, h.snapped.append_one ?_, ?_, h.credits, ?_⟩
      · simp only [if_true, hall, hnext]
        omega
      · simp only [if_true, List.map_append, List.map_cons, List.map_nil, ← List.append_assoc,
          hall, BitVec.toNat_zero, List.length_append, List.length_singleton]
        omega
      · simp only [inTransit, if_true, List.map_append, List.sum_append, List.map_cons,
          List.map_nil, List.sum_singleton, hnext, BitVec.toNat_zero]
        omega
    | false =>
      have hall := released_append_false (s.posted ++ s.posting.map (·.1))
      refine ⟨h.ring, h.enqueued, hflags, h.snapped.append_one ?_, ?_, h.credits, ?_⟩
      · simp only [if_false, Bool.false_eq_true, hall, BitVec.toNat_zero]
        omega
      · simp only [if_false, Bool.false_eq_true, List.map_append, List.map_cons, List.map_nil,
          ← List.append_assoc, hall, hnext]
        rw [List.length_append, List.length_singleton]
        omega
      · simp only [inTransit, if_false, Bool.false_eq_true, List.map_append, List.sum_append,
          List.map_cons, List.map_nil, List.sum_singleton, hnext, BitVec.toNat_zero]
        omega

theorem Inv.enqueuePost (h : Inv s) (he : Enabled db s .enqueuePost) :
    asserts db s .enqueuePost = true ∧ Inv (next db s .enqueuePost) := by
  have hcount := h.count
  have hcredits := h.credits
  obtain ⟨⟨release, amount⟩, rest, hposting⟩ := List.exists_cons_of_ne_nil he
  have hflags := h.flags
  have hsnapped := h.snapped
  have hdeferred := h.deferred
  simp only [hposting, List.map_cons] at hflags hdeferred
  rw [hposting] at hsnapped
  simp only [inTransit, hposting, List.map_cons, List.sum_cons] at hcount
  have hle : s.readSemaphore.count.toNat + amount.toNat ≤ size := by omega
  have hpost := Semaphore.toNat_count_postMultiple hle
  constructor
  · simp only [asserts, hposting, List.head?_cons, Option.all_some,
      Semaphore.postMultipleAssert, decide_eq_true_eq]
    exact hle
  · simp only [next, hposting]
    refine ⟨h.ring, h.enqueued, ?_, hsnapped.2, ?_, ?_, ?_⟩
    · simpa using hflags
    · simpa using hdeferred
    · simp only [hpost, hsnapped.1]
      omega
    · simp only [inTransit, hpost]
      omega

theorem Inv.step (hsize : PointerWraps size) (h : Inv s) (e : Event T) (he : Enabled db s e) :
    asserts db s e = true ∧ Inv (next db s e) := by
  have hcount := h.count
  have hcredits := h.credits
  cases e with
  | enqueueWait v release => exact h.enqueueWait hsize v release
  | dequeueWait => exact h.dequeueWait hsize he
  | enqueueStore => exact ⟨rfl, h.enqueueStore he⟩
  | dequeueLoad unknown => exact ⟨rfl, h.dequeueLoad unknown he⟩
  | enqueueSnap => exact h.enqueueSnap he
  | enqueuePost => exact h.enqueuePost he
  | enqueueClaim =>
    obtain ⟨call, rest, hclaiming⟩ := List.exists_cons_of_ne_nil he
    refine ⟨rfl, ?_⟩
    simp only [next, hclaiming]
    refine ⟨h.ring.claimStore hsize call, ?_, h.flags, h.snapped, h.deferred, hcredits, ?_⟩
    · simp only [Ring.claimStore, h.enqueued, hclaiming, List.map_append, List.map_cons,
        List.map_nil, List.append_assoc, List.cons_append, List.nil_append]
    · simp only [inTransit, Ring.claimStore, hclaiming, List.length_append, List.length_cons,
        List.length_nil] at hcount ⊢
      omega
  | dequeueClaim =>
    have hpos : 0 < s.dequeueClaiming := he
    refine ⟨rfl, h.ring.claimLoad hsize, h.enqueued, h.flags, h.snapped, h.deferred, ?_, ?_⟩
    · simp only [next, Ring.claimLoad, List.length_append, List.length_singleton]
      omega
    · simp only [next, inTransit, Ring.claimLoad, List.length_append,
        List.length_singleton] at hcount ⊢
      omega
  | dequeuePost =>
    have hpos : 0 < s.dequeuePosting := he
    simp only [inTransit] at hcount
    have hpost := Semaphore.toNat_count_post (s := s.writeSemaphore) (by omega)
    refine ⟨rfl, h.ring, h.enqueued, h.flags, h.snapped, h.deferred, hcredits, ?_⟩
    simp only [next, inTransit, hpost]
    omega

theorem invariant (hsize : PointerWraps size) (dataMem : Memory T size) :
    (system db dataMem).Invariant Inv where
  start := by
    refine ⟨Ring.Inv.start dataMem, rfl, rfl, trivial, ?_, ?_, ?_⟩
    · simp [system, released_nil]
    · simp [system, released_nil, Semaphore.toNat_count_initial]
    · simp [system, Semaphore.toNat_count_initial, inTransit]
  step s e h he := (h.step hsize e he).2

end StoreAndForward

/-! ## Polling -/

/-- `fifo_nb<T, Size>` with the calls in flight. `_consumerIndex` is the consumer of the ring. -/
structure FifoNb (T : Type) (size : Nat) where
  ring : Ring T T size
  /-- `_earlyCounter` -/
  earlyCounter : Counter size := Counter.reset size 0
  /-- `_lateCounter` -/
  lateCounter : Counter size := Counter.reset size 0
  /-- Reservations without an `enqueue` call. -/
  reserved : Nat := 0
  /-- Enqueue calls behind the memory, before the counter. -/
  counting : Nat := 0
  /-- The values of the enqueue calls that have a pointer, in order. -/
  enqueued : List T := []

namespace FifoNb

inductive Event (T : Type) where
  | reserveEnqueue
  | checkAndReserve
  | enqueueClaim (value : T)
  | enqueueStore
  | enqueueCount
  | pop (unknown : T)

variable {T : Type} {size : Nat}

/-- `full` -/
def full (s : FifoNb T size) : Bool := s.earlyCounter.count.toNat == size

/-- `empty` -/
def empty (s : FifoNb T size) : Bool := s.lateCounter.count.toNat == 0

/-- `front` -/
def front (s : FifoNb T size) (unknown : T) : T :=
  s.ring.dataMem.read s.ring.consumer.toNat unknown

/-- `reserve_enqueue` -/
def reserveEnqueue (s : FifoNb T size) : FifoNb T size :=
  { s with earlyCounter := s.earlyCounter.add 1#_, reserved := s.reserved + 1 }

/-- `check_and_reserve` -/
def checkAndReserve (s : FifoNb T size) : Bool × FifoNb T size :=
  if !s.full then (true, s.reserveEnqueue) else (false, s)

/-- The steps of the producer and the consumer interface. A consumer calls `front` and `pop` in one
atomic block. -/
def next (s : FifoNb T size) : Event T → FifoNb T size
  | .reserveEnqueue => s.reserveEnqueue
  | .checkAndReserve => s.checkAndReserve.2
  | .enqueueClaim v =>
    { s with ring := s.ring.claimStore v, reserved := s.reserved - 1
             enqueued := s.enqueued ++ [v] }
  | .enqueueStore => { s with ring := s.ring.store id, counting := s.counting + 1 }
  | .enqueueCount =>
    { s with lateCounter := s.lateCounter.increment, counting := s.counting - 1 }
  | .pop unknown =>
    { s with ring := s.ring.claimLoad.load unknown
             earlyCounter := s.earlyCounter.subtract 1#_
             lateCounter := s.lateCounter.subtract 1#_ }

/-- The assertions of a step. -/
def asserts (s : FifoNb T size) : Event T → Bool
  | .reserveEnqueue => !s.full
  | .enqueueCount => decide (s.lateCounter.count.toNat < size)
  | .pop _ => !s.empty
  | _ => true

/-- The callers keep their promises: a slot is reserved when the FIFO is not full, each
reservation is for one `enqueue`, and an item is removed when the FIFO is not empty. -/
def Enabled (s : FifoNb T size) : Event T → Prop
  | .reserveEnqueue => s.full = false
  | .checkAndReserve => True
  | .enqueueClaim _ => 0 < s.reserved
  | .enqueueStore => s.ring.storing ≠ []
  | .enqueueCount => 0 < s.counting
  | .pop _ => s.empty = false

/-- Any number of calls, from a memory with any content. -/
def system (dataMem : Memory T size) : System (FifoNb T size) (Event T) where
  start := { ring := { dataMem } }
  Enabled := Enabled
  next := next

/-- Slots that are reserved and not counted as an element yet. -/
def inTransit (s : FifoNb T size) : Nat := s.reserved + s.ring.storing.length + s.counting

/-- The FIFO is a queue, its front is the oldest element, and every slot is accounted for: it is
an element, or it can be reserved, or it is in transit. -/
structure IsQueue (s : FifoNb T size) : Prop where
  dequeued : s.ring.dequeued <+: s.enqueued
  written : s.ring.written <+: s.enqueued
  holds : HoldsFrom s.ring.dataMem s.ring.written s.ring.dequeued.length
  front : s.empty = false → s.ring.dequeued.length < s.ring.written.length ∧
    ∀ unknown, s.enqueued[s.ring.dequeued.length]? = some (s.front unknown)
  early_le : s.earlyCounter.count.toNat ≤ size
  count : s.lateCounter.count.toNat + (size - s.earlyCounter.count.toNat) + s.inTransit = size

/-! ### The invariant -/

structure Inv (s : FifoNb T size) : Prop where
  ring : s.ring.Inv id
  loading : s.ring.loading = []
  enqueued : s.enqueued = s.ring.written ++ s.ring.storing.map (·.1)
  written : s.ring.written.length =
    s.ring.dequeued.length + s.lateCounter.count.toNat + s.counting
  early_le : s.earlyCounter.count.toNat ≤ size
  count : s.earlyCounter.count.toNat = s.lateCounter.count.toNat + s.inTransit

variable {s : FifoNb T size}

theorem empty_eq_false_iff : s.empty = false ↔ 0 < s.lateCounter.count.toNat := by
  rw [empty, beq_eq_false_iff_ne, ne_eq, Nat.pos_iff_ne_zero]

theorem full_eq_false_iff : s.full = false ↔ s.earlyCounter.count.toNat ≠ size := by
  rw [full, beq_eq_false_iff_ne]

theorem Inv.isQueue (h : Inv s) : IsQueue s where
  dequeued := by
    rw [h.enqueued]
    exact (by simpa using h.ring.dequeued : s.ring.dequeued <+: s.ring.written).trans
      (List.prefix_append _ _)
  written := by
    rw [h.enqueued]
    exact List.prefix_append _ _
  holds := by simpa using h.ring.holds
  front := fun hempty => by
    rw [empty_eq_false_iff] at hempty
    have hwritten := h.written
    have hlt : s.ring.dequeued.length < s.ring.written.length := by omega
    refine ⟨hlt, fun unknown => ?_⟩
    have hconsumer := h.ring.consumer
    rw [h.loading, List.length_nil, Nat.add_zero] at hconsumer
    rw [h.enqueued, List.getElem?_append_left hlt, List.getElem?_eq_getElem hlt, FifoNb.front,
      hconsumer]
    have hholds := h.ring.holds _ _ unknown le_rfl
      (List.getElem?_eq_getElem (by simpa using hlt))
    rw [hholds]
    simp
  early_le := h.early_le
  count := by
    have hcount := h.count
    have hle := h.early_le
    omega

theorem Inv.reserve (h : Inv s) (hfull : s.full = false) :
    Inv s.reserveEnqueue := by
  rw [full_eq_false_iff] at hfull
  have hcount := h.count
  have hlt : s.earlyCounter.count.toNat < size := lt_of_le_of_ne h.early_le hfull
  have hadd : (s.earlyCounter.add 1#_).count.toNat = s.earlyCounter.count.toNat + 1 :=
    (Counter.StandsAt.increment ⟨hlt.le, rfl⟩ hlt).toNat_count
  refine ⟨h.ring, h.loading, h.enqueued, h.written, ?_, ?_⟩
  · simp only [reserveEnqueue, hadd]
    omega
  · simp only [reserveEnqueue, hadd, inTransit] at hcount ⊢
    omega

theorem Inv.enqueueStore (h : Inv s) (he : Enabled s .enqueueStore) :
    Inv (next s .enqueueStore) := by
  have hcount := h.count
  have hwritten := h.written
  have hle := h.early_le
  obtain ⟨⟨v, index⟩, rest, hstoring⟩ := List.exists_cons_of_ne_nil he
  have hlength : s.ring.storing.length = rest.length + 1 := by rw [hstoring, List.length_cons]
  simp only [inTransit] at hcount
  have hring := h.ring.store hstoring (by omega)
  refine ⟨hring, ?_, ?_, ?_, hle, ?_⟩
  · simp only [next, Ring.store, hstoring, h.loading]
  · simp only [next, Ring.store, hstoring, h.enqueued, List.map_cons, List.append_assoc,
      List.cons_append, List.nil_append]
  · simp only [next, Ring.store, hstoring, List.length_append, List.length_singleton]
    omega
  · simp only [next, Ring.store, hstoring, inTransit]
    omega

/-- An item is removed: the pointer is at the oldest one. -/
theorem Inv.pop (hsize : PointerWraps size) (h : Inv s) (unknown : T)
    (he : Enabled s (.pop unknown)) : Inv (next s (.pop unknown)) := by
  have hpos : 0 < s.lateCounter.count.toNat := empty_eq_false_iff.mp he
  have hcount := h.count
  have hwritten := h.written
  have hle := h.early_le
  have hloading : s.ring.claimLoad.loading = [s.ring.consumer] := by
    simp only [Ring.claimLoad, h.loading, List.nil_append]
  have hlt : s.ring.claimLoad.dequeued.length < s.ring.claimLoad.written.length := by
    simp only [Ring.claimLoad]
    omega
  have hring := (h.ring.claimLoad hsize).load hloading hlt unknown
  simp only [inTransit] at hcount
  have hearly : (s.earlyCounter.subtract 1#_).count.toNat = s.earlyCounter.count.toNat - 1 :=
    (Counter.StandsAt.decrement ⟨hle, rfl⟩ (by omega)).toNat_count
  have hlate : (s.lateCounter.subtract 1#_).count.toNat = s.lateCounter.count.toNat - 1 :=
    (Counter.StandsAt.decrement ⟨by omega, rfl⟩ hpos).toNat_count
  refine ⟨hring, ?_, ?_, ?_, ?_, ?_⟩
  · simp only [next, Ring.load, hloading]
  · simp only [next, Ring.load, Ring.claimLoad, h.loading, List.nil_append, h.enqueued]
  · simp only [next, Ring.load, Ring.claimLoad, h.loading, List.nil_append, hlate,
      List.length_append, List.length_singleton]
    omega
  · simp only [next, hearly]
    omega
  · simp only [next, hearly, hlate, inTransit, Ring.load, Ring.claimLoad, h.loading,
      List.nil_append]
    omega

theorem Inv.step (hsize : PointerWraps size) (h : Inv s) (e : Event T) (he : Enabled s e) :
    asserts s e = true ∧ Inv (next s e) := by
  have hcount := h.count
  have hwritten := h.written
  have hle := h.early_le
  cases e with
  | reserveEnqueue =>
    have hfull : s.full = false := he
    exact ⟨by simp [asserts, hfull], h.reserve he⟩
  | checkAndReserve =>
    refine ⟨rfl, ?_⟩
    simp only [next, checkAndReserve]
    cases hfull : s.full with
    | true => exact h
    | false => exact h.reserve hfull
  | enqueueStore => exact ⟨rfl, h.enqueueStore he⟩
  | pop unknown =>
    have hempty : s.empty = false := he
    exact ⟨by simp [asserts, hempty], h.pop hsize unknown he⟩
  | enqueueClaim v =>
    have hpos : 0 < s.reserved := he
    refine ⟨rfl, h.ring.claimStore hsize v, h.loading, ?_, hwritten, hle, ?_⟩
    · simp only [next, Ring.claimStore, h.enqueued, List.map_append, List.map_cons,
        List.map_nil, List.append_assoc]
    · simp only [next, inTransit, Ring.claimStore, List.length_append,
        List.length_singleton] at hcount ⊢
      omega
  | enqueueCount =>
    have hpos : 0 < s.counting := he
    simp only [inTransit] at hcount
    have hlt : s.lateCounter.count.toNat < size := by omega
    have hlate := (Counter.StandsAt.increment ⟨hlt.le, rfl⟩ hlt).toNat_count
    refine ⟨by simpa [asserts] using hlt, h.ring, h.loading, h.enqueued, ?_, hle, ?_⟩
    · simp only [next, hlate]
      omega
    · simp only [next, hlate, inTransit]
      omega

theorem invariant (hsize : PointerWraps size) (dataMem : Memory T size) :
    (system dataMem).Invariant Inv where
  start := by
    have hzero : (Counter.reset size 0).count.toNat = 0 :=
      (Counter.standsAt_reset (Nat.zero_le _)).toNat_count
    refine ⟨Ring.Inv.start dataMem, rfl, rfl, ?_, ?_, ?_⟩
    · simp [system, hzero]
    · simp [system, hzero]
    · simp [system, hzero, inTransit]
  step s e h he := (h.step hsize e he).2

end FifoNb

end Kanagawa.Library
