/-
  Kanagawa.Library.Lock

  The locks of `sync/lock.k` are safe.

  Threads take turns on a lock.  One turn of a loop `atomic do; while(...)` is
  one event, so that a thread that has to wait takes any number of turns.  Next
  to the lock stands what no hardware holds: which threads hold it, and how many
  credits a semaphore has.
-/
import Kanagawa.Lib.Runs
import Kanagawa.Library.Counter

namespace Kanagawa.Library

open Kanagawa.Runs

/-! ## Mutex -/

/-- `mutex` -/
structure Mutex where
  /-- `_locked` -/
  locked : Bool := false
  deriving DecidableEq

namespace Mutex

/-- `test_set`, which is one turn of `lock`. -/
def testSet (m : Mutex) : Bool × Mutex :=
  if !m.locked then (true, { m with locked := true }) else (false, m)

/-- The assertion of `unlock`. -/
def unlockAssert (m : Mutex) : Bool := m.locked

/-- `unlock` -/
def unlock (m : Mutex) : Mutex := { m with locked := false }

/-- A mutex with the threads that hold it. -/
structure State (T : Type) where
  mutex : Mutex := {}
  holders : List T := []

inductive Event (T : Type) where
  | lock (thread : T)
  | unlock (thread : T)

variable {T : Type} [DecidableEq T]

/-- Any number of threads on a mutex. Only a thread that holds the mutex unlocks it. -/
def system (T : Type) [DecidableEq T] : System (State T) (Event T) where
  start := {}
  Enabled
    | _, .lock _ => True
    | s, .unlock t => t ∈ s.holders
  next
    | s, .lock t =>
      match s.mutex.testSet with
      | (true, mutex) => { mutex, holders := t :: s.holders }
      | (false, mutex) => { s with mutex }
    | s, .unlock t => { mutex := s.mutex.unlock, holders := s.holders.erase t }

/-- At most one thread holds the mutex, and no assertion of an unlocking thread fires. -/
structure Safe (s : State T) : Prop where
  exclusive : s.holders.length ≤ 1
  asserts : s.holders ≠ [] → s.mutex.unlockAssert = true

/-- The flag says whether the mutex is held. -/
structure Inv (s : State T) : Prop where
  exclusive : s.holders.length ≤ 1
  locked : s.mutex.locked = true ↔ s.holders ≠ []

omit [DecidableEq T] in
theorem Inv.safe {s : State T} (h : Inv s) : Safe s := ⟨h.exclusive, h.locked.mpr⟩

/-- Who gives up the only hold on something leaves no holder. -/
theorem erase_eq_nil {l : List T} {t : T} (hl : l.length ≤ 1) (ht : t ∈ l) : l.erase t = [] := by
  apply List.eq_nil_of_length_eq_zero
  rw [List.length_erase_of_mem ht]
  omega

theorem invariant : (system T).Invariant Inv where
  start := ⟨by simp [system], by simp [system]⟩
  step s e h he := by
    cases e with
    | lock t =>
      simp only [system, testSet]
      cases hlocked : s.mutex.locked with
      | true => exact ⟨h.exclusive, by simpa [hlocked] using h.locked⟩
      | false =>
        -- The flag is clear, so that the new holder is the only one.
        have hnil : s.holders = [] := by simpa [hlocked] using h.locked
        exact ⟨by simp [hnil], by simp⟩
    | unlock t =>
      have hnil := erase_eq_nil h.exclusive he
      exact ⟨by simp [system, hnil], by simp [system, unlock, hnil]⟩

end Mutex

/-! ## Reader-writer lock -/

/-- `rwlock<MaxThreads>` -/
structure RwLock (maxThreads : Nat) where
  /-- `_read_lock_counter` -/
  readLockCounter : Counter maxThreads := Counter.reset maxThreads 0
  /-- `_write_locked` -/
  writeLocked : Bool := false

namespace RwLock

variable {maxThreads : Nat}

/-- `check_lock`, which is one turn of `lock`. -/
def checkLock (l : RwLock maxThreads) (isReader : Bool) : Bool × RwLock maxThreads :=
  let rlocksUsed := l.readLockCounter.count
  let result :=
    if isReader then !l.writeLocked && decide (rlocksUsed.toNat < maxThreads)
    else !l.writeLocked && decide (rlocksUsed.toNat = 0)
  if result then
    (true, { readLockCounter := l.readLockCounter.add ((BitVec.ofBool isReader).setWidth _)
             writeLocked := !isReader })
  else
    (false, l)

/-- `read_unlock` -/
def readUnlock (l : RwLock maxThreads) : RwLock maxThreads :=
  { l with readLockCounter := l.readLockCounter.subtract 1#_ }

/-- `write_unlock` -/
def writeUnlock (l : RwLock maxThreads) : RwLock maxThreads := { l with writeLocked := false }

/-- `unlock` -/
def unlock (l : RwLock maxThreads) (isReader : Bool) : RwLock maxThreads :=
  if isReader then l.readUnlock else l.writeUnlock

/-- A lock with one entry in `readers` for each read lock that a thread holds, and one in
`writers` for each write lock. -/
structure State (T : Type) (maxThreads : Nat) where
  lock : RwLock maxThreads := {}
  readers : List T := []
  writers : List T := []

inductive Event (T : Type) where
  | lock (thread : T) (isReader : Bool)
  | unlock (thread : T) (isReader : Bool)

variable {T : Type} [DecidableEq T]

/-- Any number of threads on a lock. A thread gives back only a kind of lock that it holds. -/
def system (T : Type) [DecidableEq T] (maxThreads : Nat) :
    System (State T maxThreads) (Event T) where
  start := {}
  Enabled
    | _, .lock _ _ => True
    | s, .unlock t isReader => t ∈ if isReader then s.readers else s.writers
  next
    | s, .lock t isReader =>
      match s.lock.checkLock isReader with
      | (true, lock) =>
        if isReader then { s with lock, readers := t :: s.readers }
        else { s with lock, writers := t :: s.writers }
      | (false, lock) => { s with lock }
    | s, .unlock t isReader =>
      if isReader then { s with lock := s.lock.unlock true, readers := s.readers.erase t }
      else { s with lock := s.lock.unlock false, writers := s.writers.erase t }

/-- A writer excludes readers and other writers, and the count is the number of readers. -/
structure Safe (s : State T maxThreads) : Prop where
  writers_le : s.writers.length ≤ 1
  excludes : s.writers ≠ [] → s.readers = []
  readers_le : s.readers.length ≤ maxThreads
  count : s.lock.readLockCounter.count.toNat = s.readers.length

structure Inv (s : State T maxThreads) : Prop where
  writers_le : s.writers.length ≤ 1
  writeLocked : s.lock.writeLocked = true ↔ s.writers ≠ []
  excludes : s.writers ≠ [] → s.readers = []
  standsAt : s.lock.readLockCounter.StandsAt s.readers.length

omit [DecidableEq T] in
theorem Inv.safe {s : State T maxThreads} (h : Inv s) : Safe s :=
  ⟨h.writers_le, h.excludes, h.standsAt.le, h.standsAt.toNat_count⟩

/-- A reader is let in when no writer holds the lock and a read lock is left. -/
theorem Inv.readLock {s : State T maxThreads} (h : Inv s) (t : T) :
    Inv ((system T maxThreads).next s (.lock t true)) := by
  simp only [system, checkLock, if_true]
  by_cases hresult : s.lock.writeLocked = false ∧ s.lock.readLockCounter.count.toNat < maxThreads
  · obtain ⟨hw, hlt⟩ := hresult
    have hnone : s.writers = [] := by simpa [hw] using h.writeLocked
    rw [h.standsAt.toNat_count] at hlt
    have hone : (BitVec.ofBool true).setWidth (countWidth maxThreads) = 1#_ := by
      apply BitVec.eq_of_toNat_eq
      rw [BitVec.toNat_setWidth]
      rfl
    simp only [hw, h.standsAt.toNat_count, hlt, hone]
    exact ⟨by simp [hnone], by simp [hnone], by simp [hnone], h.standsAt.increment hlt⟩
  · have hfail : (!s.lock.writeLocked &&
        decide (s.lock.readLockCounter.count.toNat < maxThreads)) = false := by
      cases hw : s.lock.writeLocked <;> simp_all
    simp only [hfail]
    exact h

/-- A writer is let in when nobody holds the lock. -/
theorem Inv.writeLock {s : State T maxThreads} (h : Inv s) (t : T) :
    Inv ((system T maxThreads).next s (.lock t false)) := by
  simp only [system, checkLock]
  by_cases hresult : s.lock.writeLocked = false ∧ s.lock.readLockCounter.count.toNat = 0
  · obtain ⟨hw, hzero⟩ := hresult
    have hnone : s.writers = [] := by simpa [hw] using h.writeLocked
    rw [h.standsAt.toNat_count] at hzero
    have hreaders : s.readers = [] := List.eq_nil_of_length_eq_zero hzero
    have hamount : ((BitVec.ofBool false).setWidth (countWidth maxThreads)).toNat = 0 := by simp
    have hle : s.readers.length +
        ((BitVec.ofBool false).setWidth (countWidth maxThreads)).toNat ≤ maxThreads := by
      rw [hamount]
      exact h.standsAt.le
    have hstands := h.standsAt.add hle
    rw [hamount] at hstands
    simp only [hw, h.standsAt.toNat_count, hzero]
    exact ⟨by simp [hnone], by simp, by simp [hreaders], hstands⟩
  · have hfail : (!s.lock.writeLocked &&
        decide (s.lock.readLockCounter.count.toNat = 0)) = false := by
      cases hw : s.lock.writeLocked <;> simp_all
    simp only [hfail]
    exact h

theorem invariant : (system T maxThreads).Invariant Inv where
  start := ⟨by simp [system], by simp [system], by simp [system],
    Counter.standsAt_reset (Nat.zero_le _)⟩
  step s e h he := by
    cases e with
    | lock t isReader =>
      cases isReader with
      | true => exact h.readLock t
      | false => exact h.writeLock t
    | unlock t isReader =>
      cases isReader with
      | true =>
        have hmem : t ∈ s.readers := he
        have hpos : 0 < s.readers.length := List.length_pos_of_mem hmem
        -- A reader holds the lock, so that no writer does.
        have hnone : s.writers = [] := by
          by_contra hw
          rw [h.excludes hw] at hmem
          exact absurd hmem List.not_mem_nil
        refine ⟨h.writers_le, h.writeLocked, by simp [system, hnone], ?_⟩
        simp only [system, if_true, List.length_erase_of_mem hmem]
        exact h.standsAt.decrement hpos
      | false =>
        have hnil : s.writers.erase t = [] := Mutex.erase_eq_nil h.writers_le he
        exact ⟨by simp [system, hnil], by simp [system, unlock, writeUnlock, hnil],
          by simp [system, hnil], h.standsAt⟩

end RwLock

/-! ## Semaphore -/

/-- `semaphore<M, I>` -/
structure Semaphore (maximum : Nat) where
  /-- `_counter` -/
  counter : Counter maximum

/-- What one turn of a wait does: whether the call goes on, whether its assertion holds, and
whether the credits were taken. -/
structure WaitTurn (S : Type) where
  returns : Bool
  asserts : Bool
  taken : Bool
  state : S

namespace Semaphore

variable {maximum : Nat}

def initial (maximum initial : Nat) : Semaphore maximum := ⟨Counter.reset maximum initial⟩

/-- `test_and_decrement` -/
def testAndDecrement (s : Semaphore maximum) (val : BitVec (countWidth maximum)) :
    Bool × Semaphore maximum :=
  let result := decide (s.counter.count ≥ val)
  if result then (true, ⟨s.counter.subtract val⟩) else (false, s)

/-- One turn of `wait_multiple`, which `wait` calls with one. -/
def waitMultiple (blocking : Bool) (s : Semaphore maximum) (val : BitVec (countWidth maximum)) :
    WaitTurn (Semaphore maximum) :=
  let (result, s) := s.testAndDecrement val
  if blocking then ⟨result, true, result, s⟩ else ⟨true, result, result, s⟩

/-- `post` -/
def post (s : Semaphore maximum) : Semaphore maximum := ⟨s.counter.increment⟩

/-- The assertion of `post_multiple`. -/
def postMultipleAssert (s : Semaphore maximum) (amount : BitVec (countWidth maximum)) : Bool :=
  decide (s.counter.count.toNat + amount.toNat ≤ maximum)

/-- `post_multiple` -/
def postMultiple (s : Semaphore maximum) (amount : BitVec (countWidth maximum)) :
    Semaphore maximum :=
  ⟨s.counter.add amount⟩

/-- `count` -/
def count (s : Semaphore maximum) : BitVec (countWidth maximum) := s.counter.count

/-- A semaphore with its credits: what was there at the start and what was posted, less what was
taken. -/
structure State (maximum : Nat) where
  semaphore : Semaphore maximum
  credits : Int

inductive Event (maximum : Nat) where
  | wait (val : BitVec (countWidth maximum))
  | post
  | postMultiple (amount : BitVec (countWidth maximum))

/-- Any number of threads on a semaphore. No post raises the credits above the maximum. -/
def system (maximum first : Nat) (blocking : Bool) : System (State maximum) (Event maximum) where
  start := ⟨initial maximum first, first⟩
  Enabled
    | _, .wait _ => True
    | s, .post => s.credits + 1 ≤ maximum
    | s, .postMultiple amount => s.credits + amount.toNat ≤ maximum
  next
    | s, .wait val =>
      let turn := s.semaphore.waitMultiple blocking val
      ⟨turn.state, if turn.taken then s.credits - val.toNat else s.credits⟩
    | s, .post => ⟨s.semaphore.post, s.credits + 1⟩
    | s, .postMultiple amount => ⟨s.semaphore.postMultiple amount, s.credits + amount.toNat⟩

/-- `count()` is the number of credits, which stays between zero and the maximum. The assertions
fire only when a caller breaks its promise. -/
structure Safe (blocking : Bool) (s : State maximum) : Prop where
  nonneg : 0 ≤ s.credits
  le : s.credits ≤ maximum
  count : (s.semaphore.count.toNat : Int) = s.credits
  post_asserts : ∀ amount, s.credits + amount.toNat ≤ maximum →
    s.semaphore.postMultipleAssert amount = true
  wait_asserts : ∀ val, (blocking = true ∨ (val.toNat : Int) ≤ s.credits) →
    (s.semaphore.waitMultiple blocking val).asserts = true

/-- The counter of the semaphore stands at its credits. -/
def Inv (s : State maximum) : Prop := ∃ n : Nat, s.credits = n ∧ s.semaphore.counter.StandsAt n

/-- The test of a wait compares with the credits. -/
theorem testAndDecrement_of_standsAt {s : Semaphore maximum} {n : Nat}
    (h : s.counter.StandsAt n) (val : BitVec (countWidth maximum)) :
    s.testAndDecrement val =
      if val.toNat ≤ n then (true, ⟨s.counter.subtract val⟩) else (false, s) := by
  simp only [testAndDecrement, ge_iff_le, BitVec.le_def, h.toNat_count, decide_eq_true_eq]

@[simp] theorem waitMultiple_taken (blocking : Bool) (s : Semaphore maximum)
    (val : BitVec (countWidth maximum)) :
    (s.waitMultiple blocking val).taken = (s.testAndDecrement val).1 := by
  cases blocking <;> rfl

@[simp] theorem waitMultiple_state (blocking : Bool) (s : Semaphore maximum)
    (val : BitVec (countWidth maximum)) :
    (s.waitMultiple blocking val).state = (s.testAndDecrement val).2 := by
  cases blocking <;> rfl

/-- A turn of a wait whose caller keeps its promise takes the credits and returns, or it leaves
the semaphore as it is. -/
theorem waitMultiple_cases {blocking : Bool} {s : Semaphore maximum}
    {val : BitVec (countWidth maximum)} (hle : s.count.toNat ≤ maximum)
    (h : blocking = true ∨ val.toNat ≤ s.count.toNat) :
    (s.waitMultiple blocking val).asserts = true ∧
    ((s.waitMultiple blocking val).returns = true ∧ val.toNat ≤ s.count.toNat ∧
        (s.waitMultiple blocking val).state.count.toNat = s.count.toNat - val.toNat ∨
      (s.waitMultiple blocking val).returns = false ∧
        (s.waitMultiple blocking val).state = s) := by
  have hstands : s.counter.StandsAt s.count.toNat := ⟨hle, rfl⟩
  simp only [waitMultiple, testAndDecrement_of_standsAt hstands]
  by_cases hval : val.toNat ≤ s.count.toNat
  · have hcount := (hstands.subtract hval).toNat_count
    simp only [hval, if_true]
    cases blocking <;> exact ⟨rfl, .inl ⟨rfl, trivial, hcount⟩⟩
  · have hblocking : blocking = true := h.resolve_right hval
    simp [hval, hblocking]

/-- A turn of `wait`. -/
theorem wait_cases {blocking : Bool} {s : Semaphore maximum} (hpos : 0 < maximum)
    (hle : s.count.toNat ≤ maximum) (h : blocking = true ∨ 1 ≤ s.count.toNat) :
    (s.waitMultiple blocking 1#_).asserts = true ∧
    ((s.waitMultiple blocking 1#_).returns = true ∧ 1 ≤ s.count.toNat ∧
        (s.waitMultiple blocking 1#_).state.count.toNat = s.count.toNat - 1 ∨
      (s.waitMultiple blocking 1#_).returns = false ∧
        (s.waitMultiple blocking 1#_).state = s) := by
  have hone := Counter.toNat_one hpos
  rw [← hone] at h
  have hturn := waitMultiple_cases hle h
  rwa [hone] at hturn

theorem toNat_count_post {s : Semaphore maximum} (h : s.count.toNat < maximum) :
    s.post.count.toNat = s.count.toNat + 1 :=
  (Counter.StandsAt.increment ⟨h.le, rfl⟩ h).toNat_count

theorem toNat_count_postMultiple {s : Semaphore maximum} {amount : BitVec (countWidth maximum)}
    (h : s.count.toNat + amount.toNat ≤ maximum) :
    (s.postMultiple amount).count.toNat = s.count.toNat + amount.toNat :=
  (Counter.StandsAt.add ⟨(Nat.le_add_right _ _).trans h, rfl⟩ h).toNat_count

theorem postMultipleAssert_of_le {s : Semaphore maximum} {amount : BitVec (countWidth maximum)}
    (h : s.count.toNat + amount.toNat ≤ maximum) : s.postMultipleAssert amount = true :=
  decide_eq_true h

theorem toNat_count_initial {first : Nat} (h : first ≤ maximum) :
    (initial maximum first).count.toNat = first :=
  (Counter.standsAt_reset h).toNat_count

theorem Inv.safe {blocking : Bool} {s : State maximum} (h : Inv s) : Safe blocking s := by
  obtain ⟨n, hn, hstands⟩ := h
  refine ⟨by omega, ?_, ?_, ?_, ?_⟩
  · rw [hn]
    exact_mod_cast hstands.le
  · rw [hn, count, hstands.toNat_count]
  · intro amount hle
    rw [hn] at hle
    rw [postMultipleAssert, hstands.toNat_count, decide_eq_true_eq]
    omega
  · intro val hval
    simp only [waitMultiple, testAndDecrement_of_standsAt hstands]
    cases blocking with
    | true => rfl
    | false =>
      have hle : val.toNat ≤ n := by
        rcases hval with hval | hval
        · exact absurd hval (by decide)
        · omega
      simp [hle]

theorem invariant {first : Nat} (hfirst : first ≤ maximum) (blocking : Bool) :
    (system maximum first blocking).Invariant Inv where
  start := ⟨first, rfl, Counter.standsAt_reset hfirst⟩
  step s e h he := by
    obtain ⟨n, hn, hstands⟩ := h
    cases e with
    | wait val =>
      simp only [system, waitMultiple_taken, waitMultiple_state,
        testAndDecrement_of_standsAt hstands]
      by_cases hle : val.toNat ≤ n
      · simp only [hle, if_true, hn]
        exact ⟨n - val.toNat, (Int.ofNat_sub hle).symm, hstands.subtract hle⟩
      · simp only [hle, if_false, Bool.false_eq_true]
        exact ⟨n, hn, hstands⟩
    | post =>
      have hlt : s.credits + 1 ≤ maximum := he
      exact ⟨n + 1, by simp [system, hn], hstands.increment (by omega)⟩
    | postMultiple amount =>
      have hle : s.credits + amount.toNat ≤ maximum := he
      exact ⟨n + amount.toNat, by simp [system, hn], hstands.add (by omega)⟩

end Semaphore

end Kanagawa.Library
