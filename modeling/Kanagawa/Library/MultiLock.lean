/-
  Kanagawa.Library.MultiLock

  The multi-instance locks of `sync/lock/multi.k` are safe, and their instances
  are independent of one another.

  The instances live in memories, or in an array of counters.  An index outside
  them is a value that the index type may have: a memory read there is
  undefined, so that it comes with the event that makes it.
-/
import Kanagawa.Library.Lock

namespace Kanagawa.Library

open Kanagawa.Runs

/-! ## Mutexes -/

/-- `multi_mutex<NumMutexes>` -/
structure MultiMutex (numMutexes : Nat) where
  /-- `_w` -/
  w : Memory (BitVec 1) numMutexes
  /-- `_r` -/
  r : Memory (BitVec 1) numMutexes
  isInitialized : Bool := false

namespace MultiMutex

variable {n : Nat}

/-- The body of the loop of `init`. -/
def initEntry (m : MultiMutex n) (i : Nat) : MultiMutex n :=
  { m with r := m.r.write i 0#1, w := m.w.write i 0#1 }

/-- `init` -/
def init (m : MultiMutex n) : MultiMutex n :=
  { (List.range n).foldl initEntry m with isInitialized := true }

/-- One turn of `lock`. -/
def lock (m : MultiMutex n) (index : BitVec (indexWidth n)) (unknownR unknownW : BitVec 1) :
    Bool × MultiMutex n :=
  let r := m.r.read index.toNat unknownR
  let w := m.w.read index.toNat unknownW
  if r = w then
    (true, { m with w := m.w.write index.toNat (w + 1) })
  else
    (false, { m with w := m.w.write index.toNat w })

/-- `unlock` -/
def unlock (m : MultiMutex n) (index : BitVec (indexWidth n)) (unknownR : BitVec 1) :
    MultiMutex n :=
  let r := m.r.read index.toNat unknownR
  { m with r := m.r.write index.toNat (r + 1) }

/-- What the memories hold for one mutex. -/
def entry (m : MultiMutex n) (i : Nat) : BitVec 1 × BitVec 1 := (m.r.read i 0#1, m.w.read i 0#1)

/-- `init` clears every mutex. -/
theorem entry_init (m : MultiMutex n) {i : Nat} (hi : i < n) : m.init.entry i = (0#1, 0#1) := by
  refine foldl_establishes (P := fun i m => i < n → m.entry i = (0#1, 0#1)) ?_ ?_
    (List.mem_range.mpr hi) m hi
  · intro m i hi
    simp only [entry, initEntry, Memory.read_write_self _ hi]
  · intro m i j hij hm hi
    simp only [entry, initEntry, Memory.read_write_of_ne _ (Ne.symm hij)]
    exact hm hi

/-- A turn of `lock` sets the mutex when it is free, and else writes its bit back. -/
theorem entry_lock (m : MultiMutex n) (index : BitVec (indexWidth n)) (ur uw : BitVec 1)
    (hi : index.toNat < n) :
    (m.lock index ur uw).1 = decide ((m.entry index.toNat).1 = (m.entry index.toNat).2) ∧
    (m.lock index ur uw).2.entry index.toNat =
      if (m.entry index.toNat).1 = (m.entry index.toNat).2 then
        ((m.entry index.toNat).1, (m.entry index.toNat).2 + 1)
      else
        m.entry index.toNat := by
  simp only [lock, entry, Memory.read_of_lt _ hi ur 0#1, Memory.read_of_lt _ hi uw 0#1]
  split
  · simp_all [Memory.read_write_self]
  · simp_all [Memory.read_write_self]

theorem entry_unlock (m : MultiMutex n) (index : BitVec (indexWidth n)) (ur : BitVec 1)
    (hi : index.toNat < n) :
    (m.unlock index ur).entry index.toNat =
      ((m.entry index.toNat).1 + 1, (m.entry index.toNat).2) := by
  simp only [unlock, entry, Memory.read_of_lt _ hi ur 0#1, Memory.read_write_self _ hi]

/-- A turn of `lock` changes no other mutex. -/
theorem entry_lock_of_ne (m : MultiMutex n) (index : BitVec (indexWidth n)) (ur uw : BitVec 1)
    {i : Nat} (hi : index.toNat ≠ i) : (m.lock index ur uw).2.entry i = m.entry i := by
  simp only [lock, entry]
  split
  · simp only [Memory.read_write_of_ne _ hi]
  · simp only [Memory.read_write_of_ne _ hi]

theorem entry_unlock_of_ne (m : MultiMutex n) (index : BitVec (indexWidth n)) (ur : BitVec 1)
    {i : Nat} (hi : index.toNat ≠ i) : (m.unlock index ur).entry i = m.entry i := by
  simp only [unlock, entry, Memory.read_write_of_ne _ hi]

theorem isInitialized_lock (m : MultiMutex n) (index : BitVec (indexWidth n))
    (ur uw : BitVec 1) : (m.lock index ur uw).2.isInitialized = m.isInitialized := by
  simp only [lock]
  split <;> rfl

/-! ### Runs -/

/-- The mutexes with the threads that hold each of them. -/
structure State (T : Type) (n : Nat) where
  mutexes : MultiMutex n
  holders : Nat → List T

inductive Event (T : Type) (n : Nat) where
  | lock (thread : T) (index : BitVec (indexWidth n)) (unknownR unknownW : BitVec 1)
  | unlock (thread : T) (index : BitVec (indexWidth n)) (unknownR : BitVec 1)

/-- The index that an event is about. -/
def Event.index {T : Type} : Event T n → Nat
  | .lock _ index _ _ => index.toNat
  | .unlock _ index _ => index.toNat

variable {T : Type} [DecidableEq T]

/-- Any number of threads, after `init` of memories with any content. -/
def system (T : Type) [DecidableEq T] {n : Nat} (content : MultiMutex n) :
    System (State T n) (Event T n) where
  start := ⟨content.init, fun _ => []⟩
  Enabled
    | _, .lock _ _ _ _ => True
    | s, .unlock t index _ => t ∈ s.holders index.toNat
  next
    | s, .lock t index ur uw =>
      let (result, mutexes) := s.mutexes.lock index ur uw
      ⟨mutexes, if result then Function.update s.holders index.toNat (t :: s.holders index.toNat)
        else s.holders⟩
    | s, .unlock t index ur =>
      ⟨s.mutexes.unlock index ur,
        Function.update s.holders index.toNat ((s.holders index.toNat).erase t)⟩

/-- At most one thread holds each of the mutexes, and the assertion of each call holds. -/
structure Safe (s : State T n) : Prop where
  exclusive : ∀ i < n, (s.holders i).length ≤ 1
  asserts : s.mutexes.isInitialized = true

/-- A mutex is held when its two bits differ. -/
structure EntryInv (entry : BitVec 1 × BitVec 1) (holders : List T) : Prop where
  exclusive : holders.length ≤ 1
  held : entry.1 = entry.2 ↔ holders = []

structure Inv (s : State T n) : Prop where
  entries : ∀ i < n, EntryInv (s.mutexes.entry i) (s.holders i)
  asserts : s.mutexes.isInitialized = true

omit [DecidableEq T] in
theorem Inv.safe {s : State T n} (h : Inv s) : Safe s :=
  ⟨fun i hi => (h.entries i hi).exclusive, h.asserts⟩

/-- An event on one mutex leaves the others as they were. -/
theorem next_of_ne (content : MultiMutex n) (s : State T n) (e : Event T n) {i : Nat}
    (hi : i ≠ e.index) :
    ((system T content).next s e).mutexes.entry i = s.mutexes.entry i ∧
      ((system T content).next s e).holders i = s.holders i := by
  cases e with
  | lock t index ur uw =>
    refine ⟨entry_lock_of_ne _ _ _ _ (Ne.symm hi), ?_⟩
    simp only [system]
    split
    · exact Function.update_of_ne hi _ _
    · rfl
  | unlock t index ur =>
    exact ⟨entry_unlock_of_ne _ _ _ (Ne.symm hi), Function.update_of_ne hi _ _⟩

/-- An event on a mutex keeps its own invariant. -/
theorem Inv.next_index {content : MultiMutex n} {s : State T n} (h : Inv s) (e : Event T n)
    (he : (system T content).Enabled s e) (hlt : e.index < n) :
    EntryInv (((system T content).next s e).mutexes.entry e.index)
      (((system T content).next s e).holders e.index) := by
  have hinv := h.entries _ hlt
  cases e with
  | lock t index ur uw =>
    obtain ⟨hresult, hentry⟩ := entry_lock s.mutexes index ur uw hlt
    simp only [system, Event.index] at hinv ⊢
    rw [hresult, hentry]
    by_cases hfree : (s.mutexes.entry index.toNat).1 = (s.mutexes.entry index.toNat).2
    · -- The mutex is free, and the thread is its only holder.
      have hnil := hinv.held.mp hfree
      simp only [hfree, decide_true, if_true, Function.update_self, hnil]
      exact ⟨by simp, by simp⟩
    · simp only [hfree, decide_false, if_false, Bool.false_eq_true]
      exact hinv
  | unlock t index ur =>
    have hmem : t ∈ s.holders index.toNat := he
    simp only [system, Event.index] at hinv ⊢
    have hnil := Mutex.erase_eq_nil hinv.exclusive hmem
    rw [entry_unlock _ _ _ hlt, Function.update_self, hnil]
    refine ⟨by simp, iff_of_true ?_ rfl⟩
    have hheld : (s.mutexes.entry index.toNat).1 ≠ (s.mutexes.entry index.toNat).2 := fun heq => by
      rw [hinv.held.mp heq] at hmem
      exact absurd hmem List.not_mem_nil
    revert hheld
    obtain ⟨r, w⟩ := s.mutexes.entry index.toNat
    revert r w
    decide

theorem invariant (content : MultiMutex n) : (system T content).Invariant Inv where
  start := ⟨fun i hi => by
    rw [show (system T content).start.mutexes = content.init from rfl, entry_init content hi]
    exact ⟨Nat.zero_le _, iff_of_true rfl rfl⟩, rfl⟩
  step s e h he := by
    refine ⟨fun i hi => ?_, ?_⟩
    · by_cases hindex : i = e.index
      · subst hindex
        exact h.next_index e he hi
      · obtain ⟨hentry, hholders⟩ := next_of_ne content s e hindex
        rw [hentry, hholders]
        exact h.entries i hi
    · cases e with
      | lock t index ur uw => exact (isInitialized_lock _ _ _ _).trans h.asserts
      | unlock t index ur => exact h.asserts

end MultiMutex

/-! ## Reader-writer locks -/

/-- `rwlock_state`: how often each kind of lock was taken, or given back. -/
structure RwLockState (maxThreads : Nat) where
  numWriters : BitVec 1
  numReaders : BitVec (countWidth maxThreads)
  deriving DecidableEq

/-- `multi_rwlock<MaxThreads, NumLocks>` -/
structure MultiRwLock (maxThreads numLocks : Nat) where
  /-- `_w` -/
  w : Memory (RwLockState maxThreads) numLocks
  /-- `_r` -/
  r : Memory (RwLockState maxThreads) numLocks
  /-- `_is_initialized` -/
  isInitialized : Bool := false

namespace MultiRwLock

variable {k n : Nat}

/-- The body of the loop of `init`. -/
def initEntry (m : MultiRwLock k n) (i : Nat) : MultiRwLock k n :=
  { m with r := m.r.write i ⟨0#1, 0#_⟩, w := m.w.write i ⟨0#1, 0#_⟩ }

/-- `init` -/
def init (m : MultiRwLock k n) : MultiRwLock k n :=
  { (List.range n).foldl initEntry m with isInitialized := true }

/-- What a turn of `lock` does to the entries of its index. -/
def lockEntry (r w : RwLockState k) (isReader : Bool) : Bool × RwLockState k :=
  let noWriteLocks := r.numWriters == w.numWriters
  let readerCount : BitVec (countWidth k) := w.numReaders - r.numReaders
  if isReader then
    if noWriteLocks && decide (readerCount.toNat < k) then
      (true, { w with numReaders := w.numReaders + 1#_ })
    else
      (false, w)
  else
    if noWriteLocks && decide (readerCount.toNat = 0) then
      (true, { w with numWriters := w.numWriters + 1#1 })
    else
      (false, w)

/-- One turn of `lock`. -/
def lock (m : MultiRwLock k n) (index : BitVec (indexWidth n)) (isReader : Bool)
    (unknownR unknownW : RwLockState k) : Bool × MultiRwLock k n :=
  let r := m.r.read index.toNat unknownR
  let w := m.w.read index.toNat unknownW
  let (result, w) := lockEntry r w isReader
  (result, { m with w := m.w.write index.toNat w })

/-- What `unlock` does to the entry of its index. -/
def unlockEntry (r : RwLockState k) (isReader : Bool) : RwLockState k :=
  if isReader then { r with numReaders := r.numReaders + 1#_ }
  else { r with numWriters := r.numWriters + 1#1 }

/-- `unlock` -/
def unlock (m : MultiRwLock k n) (index : BitVec (indexWidth n)) (isReader : Bool)
    (unknownR : RwLockState k) : MultiRwLock k n :=
  let r := m.r.read index.toNat unknownR
  { m with r := m.r.write index.toNat (unlockEntry r isReader) }

/-- What the memories hold for one lock. -/
def entry (m : MultiRwLock k n) (i : Nat) : RwLockState k × RwLockState k :=
  (m.r.read i ⟨0#1, 0#_⟩, m.w.read i ⟨0#1, 0#_⟩)

/-- The counter that the two halves of the reader count are. -/
def readers (entry : RwLockState k × RwLockState k) : Counter k :=
  ⟨entry.2.numReaders, entry.1.numReaders⟩

/-- `init` clears every lock. -/
theorem entry_init (m : MultiRwLock k n) {i : Nat} (hi : i < n) :
    m.init.entry i = (⟨0#1, 0#_⟩, ⟨0#1, 0#_⟩) := by
  refine foldl_establishes (P := fun i m => i < n → m.entry i = (⟨0#1, 0#_⟩, ⟨0#1, 0#_⟩)) ?_ ?_
    (List.mem_range.mpr hi) m hi
  · intro m i hi
    simp only [entry, initEntry, Memory.read_write_self _ hi]
  · intro m i j hij hm hi
    simp only [entry, initEntry, Memory.read_write_of_ne _ (Ne.symm hij)]
    exact hm hi

theorem lock_eq (m : MultiRwLock k n) (index : BitVec (indexWidth n)) (isReader : Bool)
    (ur uw : RwLockState k) (hi : index.toNat < n) :
    let turn := lockEntry (m.entry index.toNat).1 (m.entry index.toNat).2 isReader
    (m.lock index isReader ur uw).1 = turn.1 ∧
      (m.lock index isReader ur uw).2.entry index.toNat = ((m.entry index.toNat).1, turn.2) := by
  simp only [lock, entry, Memory.read_of_lt _ hi ur ⟨0#1, 0#_⟩,
    Memory.read_of_lt _ hi uw ⟨0#1, 0#_⟩, Memory.read_write_self _ hi, and_self]

theorem entry_unlock (m : MultiRwLock k n) (index : BitVec (indexWidth n)) (isReader : Bool)
    (ur : RwLockState k) (hi : index.toNat < n) :
    (m.unlock index isReader ur).entry index.toNat =
      (unlockEntry (m.entry index.toNat).1 isReader, (m.entry index.toNat).2) := by
  simp only [unlock, entry, Memory.read_of_lt _ hi ur ⟨0#1, 0#_⟩, Memory.read_write_self _ hi]

theorem entry_lock_of_ne (m : MultiRwLock k n) (index : BitVec (indexWidth n)) (isReader : Bool)
    (ur uw : RwLockState k) {i : Nat} (hi : index.toNat ≠ i) :
    (m.lock index isReader ur uw).2.entry i = m.entry i := by
  simp only [lock, entry, Memory.read_write_of_ne _ hi]

theorem entry_unlock_of_ne (m : MultiRwLock k n) (index : BitVec (indexWidth n))
    (isReader : Bool) (ur : RwLockState k) {i : Nat} (hi : index.toNat ≠ i) :
    (m.unlock index isReader ur).entry i = m.entry i := by
  simp only [unlock, entry, Memory.read_write_of_ne _ hi]

/-! ### Runs -/

/-- The locks with an entry for each read lock and each write lock that a thread holds. -/
structure State (T : Type) (k n : Nat) where
  locks : MultiRwLock k n
  readers : Nat → List T
  writers : Nat → List T

inductive Event (T : Type) (k n : Nat) where
  | lock (thread : T) (index : BitVec (indexWidth n)) (isReader : Bool)
      (unknownR unknownW : RwLockState k)
  | unlock (thread : T) (index : BitVec (indexWidth n)) (isReader : Bool)
      (unknownR : RwLockState k)

/-- The index that an event is about. -/
def Event.index {T : Type} : Event T k n → Nat
  | .lock _ index _ _ _ => index.toNat
  | .unlock _ index _ _ => index.toNat

variable {T : Type} [DecidableEq T]

/-- Any number of threads, after `init` of memories with any content. -/
def system (T : Type) [DecidableEq T] {k n : Nat} (content : MultiRwLock k n) :
    System (State T k n) (Event T k n) where
  start := ⟨content.init, fun _ => [], fun _ => []⟩
  Enabled
    | _, .lock _ _ _ _ _ => True
    | s, .unlock t index isReader _ =>
      t ∈ if isReader then s.readers index.toNat else s.writers index.toNat
  next
    | s, .lock t index isReader ur uw =>
      let i := index.toNat
      let (result, locks) := s.locks.lock index isReader ur uw
      { locks
        readers := if result && isReader then Function.update s.readers i (t :: s.readers i)
          else s.readers
        writers := if result && !isReader then Function.update s.writers i (t :: s.writers i)
          else s.writers }
    | s, .unlock t index isReader ur =>
      let i := index.toNat
      { locks := s.locks.unlock index isReader ur
        readers := if isReader then Function.update s.readers i ((s.readers i).erase t)
          else s.readers
        writers := if isReader then s.writers
          else Function.update s.writers i ((s.writers i).erase t) }

/-- For each lock, a writer excludes readers and other writers, and the reader count of the code
is the number of readers. -/
structure Safe (s : State T k n) : Prop where
  writers_le : ∀ i < n, (s.writers i).length ≤ 1
  excludes : ∀ i < n, s.writers i ≠ [] → s.readers i = []
  readers_le : ∀ i < n, (s.readers i).length ≤ k
  count : ∀ i < n, (readers (s.locks.entry i)).count.toNat = (s.readers i).length
  asserts : s.locks.isInitialized = true

structure EntryInv (entry : RwLockState k × RwLockState k) (readerThreads writers : List T) :
    Prop where
  writers_le : writers.length ≤ 1
  held : entry.1.numWriters = entry.2.numWriters ↔ writers = []
  excludes : writers ≠ [] → readerThreads = []
  standsAt : (readers entry).StandsAt readerThreads.length

structure Inv (s : State T k n) : Prop where
  entries : ∀ i < n, EntryInv (s.locks.entry i) (s.readers i) (s.writers i)
  asserts : s.locks.isInitialized = true

omit [DecidableEq T] in
theorem Inv.safe {s : State T k n} (h : Inv s) : Safe s where
  writers_le i hi := (h.entries i hi).writers_le
  excludes i hi := (h.entries i hi).excludes
  readers_le i hi := (h.entries i hi).standsAt.le
  count i hi := (h.entries i hi).standsAt.toNat_count
  asserts := h.asserts

/-- An event on one lock leaves the others as they were. -/
theorem next_of_ne (content : MultiRwLock k n) (s : State T k n) (e : Event T k n) {i : Nat}
    (hi : i ≠ e.index) :
    ((system T content).next s e).locks.entry i = s.locks.entry i ∧
      ((system T content).next s e).readers i = s.readers i ∧
      ((system T content).next s e).writers i = s.writers i := by
  cases e with
  | lock t index isReader ur uw =>
    refine ⟨entry_lock_of_ne _ _ _ _ _ (Ne.symm hi), ?_, ?_⟩
    · simp only [system]
      split
      · exact Function.update_of_ne hi _ _
      · rfl
    · simp only [system]
      split
      · exact Function.update_of_ne hi _ _
      · rfl
  | unlock t index isReader ur =>
    refine ⟨entry_unlock_of_ne _ _ _ _ (Ne.symm hi), ?_, ?_⟩
    · simp only [system]
      split
      · exact Function.update_of_ne hi _ _
      · rfl
    · simp only [system]
      split
      · rfl
      · exact Function.update_of_ne hi _ _

section Entry

variable {entry : RwLockState k × RwLockState k} {rs ws : List T}

omit [DecidableEq T] in
/-- A turn for a read lock. -/
theorem EntryInv.readLock (h : EntryInv entry rs ws) (t : T) :
    let turn := lockEntry entry.1 entry.2 true
    EntryInv (entry.1, turn.2) (if turn.1 then t :: rs else rs) ws := by
  have hcount : (entry.2.numReaders - entry.1.numReaders).toNat = rs.length :=
    h.standsAt.toNat_count
  simp only [lockEntry, if_true, hcount]
  by_cases hlet : (entry.1.numWriters == entry.2.numWriters && decide (rs.length < k)) = true
  · simp only [hlet, if_true]
    rw [Bool.and_eq_true, beq_iff_eq, decide_eq_true_eq] at hlet
    exact ⟨h.writers_le, h.held, fun hne => absurd (h.held.mp hlet.1) hne,
      h.standsAt.increment hlet.2⟩
  · simp only [hlet, if_false, Bool.false_eq_true]
    exact h

omit [DecidableEq T] in
/-- A turn for a write lock. -/
theorem EntryInv.writeLock (h : EntryInv entry rs ws) (t : T) :
    let turn := lockEntry entry.1 entry.2 false
    EntryInv (entry.1, turn.2) rs (if turn.1 then t :: ws else ws) := by
  have hcount : (entry.2.numReaders - entry.1.numReaders).toNat = rs.length :=
    h.standsAt.toNat_count
  simp only [lockEntry, if_false, Bool.false_eq_true, hcount]
  by_cases hlet : (entry.1.numWriters == entry.2.numWriters && decide (rs.length = 0)) = true
  · simp only [hlet, if_true]
    rw [Bool.and_eq_true, beq_iff_eq, decide_eq_true_eq] at hlet
    have hnil := h.held.mp hlet.1
    refine ⟨by simp [hnil], ?_, fun _ => List.eq_nil_of_length_eq_zero hlet.2, h.standsAt⟩
    simp [hlet.1]
  · simp only [hlet, if_false, Bool.false_eq_true]
    exact h

/-- A reader leaves. -/
theorem EntryInv.readUnlock (h : EntryInv entry rs ws) {t : T} (ht : t ∈ rs) :
    EntryInv (unlockEntry entry.1 true, entry.2) (rs.erase t) ws := by
  refine ⟨h.writers_le, h.held, fun hne => ?_, ?_⟩
  · rw [h.excludes hne] at ht
    exact absurd ht List.not_mem_nil
  · rw [List.length_erase_of_mem ht]
    exact h.standsAt.decrement (List.length_pos_of_mem ht)

/-- A writer leaves. -/
theorem EntryInv.writeUnlock (h : EntryInv entry rs ws) {t : T} (ht : t ∈ ws) :
    EntryInv (unlockEntry entry.1 false, entry.2) rs (ws.erase t) := by
  have hnil := Mutex.erase_eq_nil h.writers_le ht
  rw [hnil]
  refine ⟨Nat.zero_le _, iff_of_true ?_ rfl, fun hne => absurd rfl hne, h.standsAt⟩
  have hheld : entry.1.numWriters ≠ entry.2.numWriters := fun heq => by
    rw [h.held.mp heq] at ht
    exact absurd ht List.not_mem_nil
  show entry.1.numWriters + 1#1 = entry.2.numWriters
  revert hheld
  generalize entry.1.numWriters = r
  generalize entry.2.numWriters = w
  revert r w
  decide

end Entry

/-- An event on a lock keeps its own invariant. -/
theorem Inv.next_index {content : MultiRwLock k n} {s : State T k n} (h : Inv s)
    (e : Event T k n) (he : (system T content).Enabled s e) (hlt : e.index < n) :
    EntryInv (((system T content).next s e).locks.entry e.index)
      (((system T content).next s e).readers e.index)
      (((system T content).next s e).writers e.index) := by
  have hinv := h.entries _ hlt
  cases e with
  | lock t index isReader ur uw =>
    obtain ⟨hresult, hentry⟩ := lock_eq s.locks index isReader ur uw hlt
    simp only [system, Event.index] at hinv ⊢
    rw [hresult, hentry]
    cases isReader with
    | true =>
      have hnext := hinv.readLock t
      simp only [Bool.and_true, Bool.and_false, Bool.not_true, if_false, Bool.false_eq_true]
      simp only [ite_apply, Function.update_self]
      exact hnext
    | false =>
      have hnext := hinv.writeLock t
      simp only [Bool.and_true, Bool.and_false, Bool.not_false, if_false, Bool.false_eq_true]
      simp only [ite_apply, Function.update_self]
      exact hnext
  | unlock t index isReader ur =>
    simp only [system, Event.index] at he hinv ⊢
    rw [entry_unlock _ _ _ _ hlt]
    cases isReader with
    | true =>
      simp only [if_true, Function.update_self]
      exact hinv.readUnlock he
    | false =>
      simp only [if_false, Bool.false_eq_true, Function.update_self]
      exact hinv.writeUnlock he

theorem invariant (content : MultiRwLock k n) : (system T content).Invariant Inv where
  start := ⟨fun i hi => by
    rw [show (system T content).start.locks = content.init from rfl, entry_init content hi]
    exact ⟨Nat.zero_le _, iff_of_true rfl rfl, fun _ => rfl,
      Counter.standsAt_reset (Nat.zero_le _)⟩, rfl⟩
  step s e h he := by
    refine ⟨fun i hi => ?_, ?_⟩
    · by_cases hindex : i = e.index
      · subst hindex
        exact h.next_index e he hi
      · obtain ⟨hentry, hreaders, hwriters⟩ := next_of_ne content s e hindex
        rw [hentry, hreaders, hwriters]
        exact h.entries i hi
    · cases e with
      | lock t index isReader ur uw => exact h.asserts
      | unlock t index isReader ur => exact h.asserts

end MultiRwLock

/-! ## Semaphores -/

/-- `multi_semaphore<N, M, I>` -/
structure MultiSemaphore (n maximum : Nat) where
  /-- `_counter` -/
  counter : Vector (Counter maximum) n

namespace MultiSemaphore

variable {n maximum : Nat}

def initial (n maximum initial : Nat) : MultiSemaphore n maximum :=
  ⟨Vector.replicate n (Counter.reset maximum initial)⟩

/-- A `static for` over the counters whose body is behind `i == which`. -/
def modifyCounter (s : MultiSemaphore n maximum) (which : BitVec (indexWidth n))
    (f : Counter maximum → Counter maximum) : MultiSemaphore n maximum :=
  ⟨s.counter.mapIdx fun i c => if i = which.toNat then f c else c⟩

/-- `test_and_decrement` -/
def testAndDecrement (s : MultiSemaphore n maximum) (which : BitVec (indexWidth n))
    (val : BitVec (countWidth maximum)) (decrementCount : Bool) :
    Bool × MultiSemaphore n maximum :=
  let counts := s.counter.map Counter.count
  let result := decide (arrayRead counts 0#_ which.toNat ≥ val)
  if result && decrementCount then (result, s.modifyCounter which (·.subtract val))
  else (result, s)

/-- One turn of `wait_helper`, which `wait` calls with one and `wait_multiple` with its value. -/
def waitHelper (blocking : Bool) (s : MultiSemaphore n maximum) (which : BitVec (indexWidth n))
    (val : BitVec (countWidth maximum)) (decrementCount : Bool) :
    WaitTurn (MultiSemaphore n maximum) :=
  let (result, s) := s.testAndDecrement which val decrementCount
  if blocking then ⟨result, true, result && decrementCount, s⟩
  else ⟨true, result || !decrementCount, result && decrementCount, s⟩

/-- `post` -/
def post (s : MultiSemaphore n maximum) (which : BitVec (indexWidth n)) :
    MultiSemaphore n maximum :=
  s.modifyCounter which Counter.increment

/-- `count`; the result is assigned behind `i == which`. -/
def count (s : MultiSemaphore n maximum) (which : BitVec (indexWidth n)) :
    Option (BitVec (countWidth maximum)) :=
  (List.finRange n).foldl
    (fun result i => if i.val = which.toNat then some s.counter[i].count else result) none

/-- The assertion of `post_multiple`, which it makes behind `i == which`. -/
def postMultipleAssert (s : MultiSemaphore n maximum) (which : BitVec (indexWidth n))
    (amount : BitVec (countWidth maximum)) : Bool :=
  (List.finRange n).all fun i =>
    decide (i.val = which.toNat → s.counter[i].count.toNat + amount.toNat ≤ maximum)

/-- `post_multiple` -/
def postMultiple (s : MultiSemaphore n maximum) (which : BitVec (indexWidth n))
    (amount : BitVec (countWidth maximum)) : MultiSemaphore n maximum :=
  s.modifyCounter which (·.add amount)

theorem getElem_modifyCounter (s : MultiSemaphore n maximum) (which : BitVec (indexWidth n))
    (f : Counter maximum → Counter maximum) {i : Nat} (hi : i < n) :
    (s.modifyCounter which f).counter[i] =
      if i = which.toNat then f s.counter[i] else s.counter[i] := by
  simp only [modifyCounter, Vector.getElem_mapIdx]

theorem getElem_modifyCounter_self (s : MultiSemaphore n maximum)
    (which : BitVec (indexWidth n)) (f : Counter maximum → Counter maximum)
    (hi : which.toNat < n) :
    (s.modifyCounter which f).counter[which.toNat] = f s.counter[which.toNat] := by
  rw [getElem_modifyCounter _ _ _ hi, if_pos rfl]

theorem count_of_lt (s : MultiSemaphore n maximum) (which : BitVec (indexWidth n))
    (h : which.toNat < n) : s.count which = some (s.counter[which.toNat]).count := by
  refine foldl_establishes
    (P := fun i r => i.val = which.toNat → r = some (s.counter[which.toNat]).count) ?_ ?_
    (List.mem_finRange (⟨which.toNat, h⟩ : Fin n)) none rfl
  · intro r i hi
    simp only [hi, if_true]
    congr 2
    simp only [Fin.getElem_fin, hi]
  · intro r i j hij hr hi
    have hj : j.val ≠ which.toNat := fun hj => hij (Fin.ext (hi.trans hj.symm))
    simp only [hj, if_false]
    exact hr hi

/-! ### Runs -/

/-- The semaphores with the credits of each. -/
structure State (n maximum : Nat) where
  semaphores : MultiSemaphore n maximum
  credits : Nat → Int

inductive Event (n maximum : Nat) where
  | wait (which : BitVec (indexWidth n)) (val : BitVec (countWidth maximum))
      (decrementCount : Bool)
  | post (which : BitVec (indexWidth n))
  | postMultiple (which : BitVec (indexWidth n)) (amount : BitVec (countWidth maximum))

/-- The index that an event is about. -/
def Event.index : Event n maximum → Nat
  | .wait which _ _ => which.toNat
  | .post which => which.toNat
  | .postMultiple which _ => which.toNat

/-- Any number of threads. No post raises the credits of a semaphore above the maximum. -/
def system (n maximum first : Nat) (blocking : Bool) :
    System (State n maximum) (Event n maximum) where
  start := ⟨initial n maximum first, fun _ => first⟩
  Enabled
    | _, .wait _ _ _ => True
    | s, .post which => s.credits which.toNat + 1 ≤ maximum
    | s, .postMultiple which amount => s.credits which.toNat + amount.toNat ≤ maximum
  next
    | s, .wait which val decrementCount =>
      let i := which.toNat
      let turn := s.semaphores.waitHelper blocking which val decrementCount
      ⟨turn.state, if turn.taken then Function.update s.credits i (s.credits i - val.toNat)
        else s.credits⟩
    | s, .post which =>
      ⟨s.semaphores.post which,
        Function.update s.credits which.toNat (s.credits which.toNat + 1)⟩
    | s, .postMultiple which amount =>
      ⟨s.semaphores.postMultiple which amount,
        Function.update s.credits which.toNat (s.credits which.toNat + amount.toNat)⟩

/-- For each semaphore, `count()` is the number of its credits, which stays between zero and the
maximum. The assertions fire only when a caller breaks its promise. -/
structure Safe (blocking : Bool) (s : State n maximum) : Prop where
  nonneg : ∀ i < n, 0 ≤ s.credits i
  le : ∀ i < n, s.credits i ≤ maximum
  count : ∀ which : BitVec (indexWidth n), which.toNat < n →
    (s.semaphores.count which).map (fun c => (c.toNat : Int)) = some (s.credits which.toNat)
  post_asserts : ∀ which amount, s.credits which.toNat + amount.toNat ≤ maximum →
    s.semaphores.postMultipleAssert which amount = true
  wait_asserts : ∀ which val decrementCount, which.toNat < n →
    (blocking = true ∨ (val.toNat : Int) ≤ s.credits which.toNat) →
    (s.semaphores.waitHelper blocking which val decrementCount).asserts = true

/-- The counter of each semaphore stands at its credits. -/
def Inv (s : State n maximum) : Prop :=
  ∀ i (hi : i < n), ∃ c : Nat, s.credits i = c ∧ s.semaphores.counter[i].StandsAt c

theorem testAndDecrement_of_standsAt {s : MultiSemaphore n maximum}
    {which : BitVec (indexWidth n)} (hlt : which.toNat < n) {c : Nat}
    (h : s.counter[which.toNat].StandsAt c) (val : BitVec (countWidth maximum))
    (decrementCount : Bool) :
    s.testAndDecrement which val decrementCount =
      (decide (val.toNat ≤ c), if val.toNat ≤ c ∧ decrementCount = true then
        s.modifyCounter which (·.subtract val) else s) := by
  simp only [testAndDecrement, arrayRead_of_lt _ _ hlt, Vector.getElem_map, ge_iff_le,
    BitVec.le_def, h.toNat_count, Bool.and_eq_true, decide_eq_true_eq]
  split <;> rfl

theorem Inv.safe {blocking : Bool} {s : State n maximum} (h : Inv s) : Safe blocking s := by
  refine ⟨fun i hi => ?_, fun i hi => ?_, fun which hlt => ?_, fun which amount hle => ?_,
    fun which val decrementCount hlt hval => ?_⟩
  · obtain ⟨c, hc, -⟩ := h i hi
    omega
  · obtain ⟨c, hc, hstands⟩ := h i hi
    rw [hc]
    exact_mod_cast hstands.le
  · obtain ⟨c, hc, hstands⟩ := h _ hlt
    rw [count_of_lt _ _ hlt, Option.map_some, hstands.toNat_count, hc]
  · rw [postMultipleAssert, List.all_eq_true]
    rintro ⟨i, hi⟩ -
    rw [decide_eq_true_eq]
    rintro rfl
    obtain ⟨c, hc, hstands⟩ := h _ hi
    simp only [Fin.getElem_fin, hstands.toNat_count]
    omega
  · obtain ⟨c, hc, hstands⟩ := h _ hlt
    simp only [waitHelper, testAndDecrement_of_standsAt hlt hstands]
    cases blocking with
    | true => rfl
    | false =>
      have hle : val.toNat ≤ c := by
        rcases hval with hval | hval
        · exact absurd hval (by decide)
        · omega
      simp [hle]

/-- An event on one semaphore leaves the others as they were. -/
theorem next_of_ne (first : Nat) (blocking : Bool) (s : State n maximum) (e : Event n maximum)
    {i : Nat} (hi : i < n) (hne : i ≠ e.index) :
    ((system n maximum first blocking).next s e).semaphores.counter[i] =
        s.semaphores.counter[i] ∧
      ((system n maximum first blocking).next s e).credits i = s.credits i := by
  cases e with
  | wait which val decrementCount =>
    simp only [Event.index] at hne
    constructor
    · have hkeep : ∀ f, (s.semaphores.modifyCounter which f).counter[i] =
          s.semaphores.counter[i] := fun f => by
        rw [getElem_modifyCounter _ _ _ hi, if_neg hne]
      simp only [system, waitHelper, testAndDecrement]
      split <;> split <;> first | exact hkeep _ | rfl
    · simp only [system]
      split
      · exact Function.update_of_ne hne _ _
      · rfl
  | post which =>
    exact ⟨(getElem_modifyCounter _ _ _ hi).trans (if_neg hne), Function.update_of_ne hne _ _⟩
  | postMultiple which amount =>
    exact ⟨(getElem_modifyCounter _ _ _ hi).trans (if_neg hne), Function.update_of_ne hne _ _⟩

/-- An event on a semaphore keeps its own invariant. -/
theorem Inv.next_index {first : Nat} {blocking : Bool} {s : State n maximum} (h : Inv s)
    (e : Event n maximum) (he : (system n maximum first blocking).Enabled s e)
    (hlt : e.index < n) :
    ∃ c : Nat, ((system n maximum first blocking).next s e).credits e.index = c ∧
      ((system n maximum first blocking).next s e).semaphores.counter[e.index].StandsAt c := by
  cases e with
  | wait which val decrementCount =>
    have hlt : which.toNat < n := hlt
    obtain ⟨c, hc, hstands⟩ := h _ hlt
    have hturn : ∀ b, (s.semaphores.waitHelper b which val decrementCount).taken =
        (decide (val.toNat ≤ c) && decrementCount) ∧
        (s.semaphores.waitHelper b which val decrementCount).state =
          if val.toNat ≤ c ∧ decrementCount = true then
            s.semaphores.modifyCounter which (·.subtract val) else s.semaphores := by
      intro b
      simp only [waitHelper, testAndDecrement_of_standsAt hlt hstands]
      cases b <;> exact ⟨rfl, rfl⟩
    obtain ⟨htaken, hstate⟩ := hturn blocking
    simp only [system, Event.index, htaken, hstate]
    by_cases htake : val.toNat ≤ c ∧ decrementCount = true
    · obtain ⟨hle, rfl⟩ := htake
      refine ⟨c - val.toNat, ?_, ?_⟩
      · simp only [hle, decide_true, Bool.and_self, if_true, Function.update_self, hc]
        exact (Int.ofNat_sub hle).symm
      · simp only [hle, and_self, if_true]
        exact (getElem_modifyCounter_self _ _ _ hlt).symm ▸ hstands.subtract hle
    · refine ⟨c, ?_, ?_⟩
      · have hfalse : (decide (val.toNat ≤ c) && decrementCount) = false := by
          rw [Bool.eq_false_iff, ne_eq, Bool.and_eq_true, decide_eq_true_eq]
          exact htake
        simp only [hfalse, if_false, Bool.false_eq_true, hc]
      · simp only [htake, if_false]
        exact hstands
  | post which =>
    have hlt : which.toNat < n := hlt
    obtain ⟨c, hc, hstands⟩ := h _ hlt
    have hle : s.credits which.toNat + 1 ≤ maximum := he
    refine ⟨c + 1, ?_, ?_⟩
    · simp only [system, Event.index, Function.update_self, hc]
      rfl
    · simp only [system, post, Event.index]
      exact (getElem_modifyCounter_self _ _ _ hlt).symm ▸ hstands.increment (by omega)
  | postMultiple which amount =>
    have hlt : which.toNat < n := hlt
    obtain ⟨c, hc, hstands⟩ := h _ hlt
    have hle : s.credits which.toNat + amount.toNat ≤ maximum := he
    refine ⟨c + amount.toNat, ?_, ?_⟩
    · simp only [system, Event.index, Function.update_self, hc]
      rfl
    · simp only [system, postMultiple, Event.index]
      exact (getElem_modifyCounter_self _ _ _ hlt).symm ▸ hstands.add (by omega)

theorem invariant {first : Nat} (hfirst : first ≤ maximum) (blocking : Bool) :
    (system n maximum first blocking).Invariant Inv where
  start i hi := by
    refine ⟨first, rfl, ?_⟩
    simp only [system, initial, Vector.getElem_replicate]
    exact Counter.standsAt_reset hfirst
  step s e h he i hi := by
    by_cases hindex : i = e.index
    · subst hindex
      exact h.next_index e he hi
    · obtain ⟨hcounter, hcredits⟩ := next_of_ne first blocking s e hi hindex
      rw [hcounter, hcredits]
      exact h i hi

end MultiSemaphore

/-! ## All of the locks -/

/-- The locks of the library are safe in every state that threads reach, and an event on one
instance of a multi-instance lock leaves the other instances as they were. -/
theorem locks_safe :
    (∀ (T : Type) [DecidableEq T] (s : Mutex.State T),
      (Mutex.system T).Reachable s → Mutex.Safe s) ∧
    (∀ (T : Type) [DecidableEq T] (maxThreads : Nat) (s : RwLock.State T maxThreads),
      (RwLock.system T maxThreads).Reachable s → RwLock.Safe s) ∧
    (∀ (maximum first : Nat) (blocking : Bool), first ≤ maximum →
      ∀ s, (Semaphore.system maximum first blocking).Reachable s → Semaphore.Safe blocking s) ∧
    (∀ (T : Type) [DecidableEq T] (n : Nat) (content : MultiMutex n) (s : MultiMutex.State T n),
      (MultiMutex.system T content).Reachable s → MultiMutex.Safe s ∧
      ∀ (e : MultiMutex.Event T n) (i : Nat), i ≠ e.index →
        ((MultiMutex.system T content).next s e).mutexes.entry i = s.mutexes.entry i ∧
        ((MultiMutex.system T content).next s e).holders i = s.holders i) ∧
    (∀ (T : Type) [DecidableEq T] (maxThreads n : Nat) (content : MultiRwLock maxThreads n)
        (s : MultiRwLock.State T maxThreads n),
      (MultiRwLock.system T content).Reachable s → MultiRwLock.Safe s ∧
      ∀ (e : MultiRwLock.Event T maxThreads n) (i : Nat), i ≠ e.index →
        ((MultiRwLock.system T content).next s e).locks.entry i = s.locks.entry i ∧
        ((MultiRwLock.system T content).next s e).readers i = s.readers i ∧
        ((MultiRwLock.system T content).next s e).writers i = s.writers i) ∧
    (∀ (n maximum first : Nat) (blocking : Bool), first ≤ maximum →
      ∀ s, (MultiSemaphore.system n maximum first blocking).Reachable s →
      MultiSemaphore.Safe blocking s ∧
      ∀ (e : MultiSemaphore.Event n maximum) (i : Nat) (hi : i < n), i ≠ e.index →
        ((MultiSemaphore.system n maximum first blocking).next s e).semaphores.counter[i] =
          s.semaphores.counter[i] ∧
        ((MultiSemaphore.system n maximum first blocking).next s e).credits i =
          s.credits i) := by
  refine ⟨?_, ?_, ?_, ?_, ?_, ?_⟩
  · intro T _ s h
    exact (Mutex.invariant.of_reachable h).safe
  · intro T _ maxThreads s h
    exact (RwLock.invariant.of_reachable h).safe
  · intro maximum first blocking hfirst s h
    exact ((Semaphore.invariant hfirst blocking).of_reachable h).safe
  · intro T _ n content s h
    exact ⟨((MultiMutex.invariant content).of_reachable h).safe,
      fun e i hi => MultiMutex.next_of_ne content s e hi⟩
  · intro T _ maxThreads n content s h
    exact ⟨((MultiRwLock.invariant content).of_reachable h).safe,
      fun e i hi => MultiRwLock.next_of_ne content s e hi⟩
  · intro n maximum first blocking hfirst s h
    exact ⟨((MultiSemaphore.invariant hfirst blocking).of_reachable h).safe,
      fun e i hi hne => MultiSemaphore.next_of_ne first blocking s e hi hne⟩

/-- Two threads on each kind of lock. -/
theorem locks_safe_two_threads :
    Mutex.Safe ((Mutex.system Nat).run {} [.lock 0, .lock 1, .unlock 0, .lock 1]) ∧
    RwLock.Safe ((RwLock.system Nat 2).run {} [.lock 0 true, .lock 1 true, .unlock 0 true]) ∧
    Semaphore.Safe true ((Semaphore.system 2 1 true).run (Semaphore.system 2 1 true).start
      [.wait 1#2, .wait 1#2, .post]) ∧
    MultiMutex.Safe ((MultiMutex.system Nat ⟨#v[1#1, 0#1], #v[1#1, 1#1], false⟩).run
      (MultiMutex.system Nat ⟨#v[1#1, 0#1], #v[1#1, 1#1], false⟩).start
      [.lock 0 0#1 0#1 0#1, .lock 1 0#1 0#1 0#1]) ∧
    MultiRwLock.Safe ((MultiRwLock.system Nat (k := 2) ⟨#v[⟨1#1, 0#2⟩], #v[⟨0#1, 3#2⟩], false⟩).run
      (MultiRwLock.system Nat (k := 2) ⟨#v[⟨1#1, 0#2⟩], #v[⟨0#1, 3#2⟩], false⟩).start
      [.lock 0 0#1 false ⟨0#1, 0#2⟩ ⟨0#1, 0#2⟩, .lock 1 0#1 true ⟨0#1, 0#2⟩ ⟨0#1, 0#2⟩]) ∧
    MultiSemaphore.Safe false ((MultiSemaphore.system 3 2 1 false).run
      (MultiSemaphore.system 3 2 1 false).start [.wait 2#2 1#2 true, .post 0#2]) := by
  obtain ⟨hmutex, hrwlock, hsemaphore, hmutexes, hrwlocks, hsemaphores⟩ := locks_safe
  refine ⟨hmutex _ _ (.run .start ?_), hrwlock _ _ _ (.run .start ?_),
    hsemaphore _ _ _ (by decide) _ (.run .start ?_), (hmutexes _ _ _ _ (.run .start ?_)).1,
    (hrwlocks _ _ _ _ _ (.run .start ?_)).1,
    (hsemaphores _ _ _ _ (by decide) _ (.run .start ?_)).1⟩
  · exact ⟨trivial, trivial, List.mem_cons_self, trivial, trivial⟩
  · exact ⟨trivial, trivial, List.mem_cons_of_mem _ List.mem_cons_self, trivial⟩
  · exact ⟨trivial, trivial, show (_ : Int) ≤ _ by decide +kernel, trivial⟩
  · exact ⟨trivial, trivial, trivial⟩
  · exact ⟨trivial, trivial, trivial⟩
  · exact ⟨trivial, show (_ : Int) ≤ _ by decide +kernel, trivial⟩

end Kanagawa.Library
