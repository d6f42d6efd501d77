/-
  Kanagawa.Library.VectorMemory

  The vector accesses of the memory of `data/memory/pipelined.k`, against
  accesses to one element after the other.

  A call spawns as many threads as the bank with the most requests needs. Each
  thread accesses every bank at most once, as the schedule says, and merges
  what it has read with the results of the threads before it, in a state that
  also survives from earlier calls. The threads of a call pass the stages in
  their order and calls are made one at a time, so that a call is the sequence
  of its threads and a thread the sequence of its banks.
-/
import Kanagawa.Library.BankSchedule
import Kanagawa.Library.PipelinedMemory

namespace Kanagawa.Library

/-- `pipelined_last`: the threads in their order, over the state that they share. The result is
the one of the last thread, or the default value without any thread. -/
def pipelinedLast {σ β : Type*} [Inhabited β] (count : Nat) (body : Nat → σ → β × σ) (s : σ) :
    β × σ :=
  (List.range count).foldl (fun r tid => body tid r.2) (default, s)

theorem pipelinedLast_eq {σ β : Type*} [Inhabited β] {count : Nat} (hcount : 0 < count)
    (thread : Nat → σ → σ) (result : σ → β) (s : σ) :
    pipelinedLast count (fun tid s => (result (thread tid s), thread tid s)) s =
      (result ((List.range count).foldl (fun s tid => thread tid s) s),
        (List.range count).foldl (fun s tid => thread tid s) s) := by
  obtain ⟨count, rfl⟩ : ∃ c, count = c + 1 := ⟨count - 1, by omega⟩
  clear hcount
  induction count with
  | zero => rfl
  | succ count ih =>
    rw [pipelinedLast] at ih ⊢
    rw [List.range_succ, List.foldl_append, List.foldl_append, ih]
    rfl

/-- The assertion of `pipelined_for` and `pipelined_last`: the thread index has room for `count`
threads. -/
def pipelinedAssert (indexWidth count : Nat) : Prop := count ≤ 1 <<< indexWidth

namespace PipelinedMemory

variable {T : Type} [Inhabited T] {banks elementsPerBank : Nat}

/-- `thread_count` of the calls: the most requests for any bank. -/
def threadCount (banks elementsPerBank n : Nat) (requests : Nat → Option Nat) : Nat :=
  maximumOfBanks banks (requestsPerBank n (addressToBankIndex banks elementsPerBank) requests)

section Operations

variable (m : PipelinedMemory T banks elementsPerBank) (n : Nat)

/-- A thread of `read_vec`. What it reads from a bank without a request is not used. -/
def readVecThread (addresses : Nat → Nat) (tid : Nat) (prev : Nat → T) : Nat → T :=
  let schedule :=
    scheduleReadRequests n banks (addressToBankIndex banks elementsPerBank) addresses tid
  let perBankResults := fun i =>
    match schedule.1 i with
    | some k => m.readBank (i, (decomposeAddress banks elementsPerBank (addresses k)).2)
    | none => default
  fun k =>
    match schedule.2 k with
    | some i => perBankResults i
    | none => prev k

/-- `read_vec`: the result, and the state that stays for the next call. -/
def readVec (addresses : Nat → Nat) (prev : Nat → T) : (Nat → T) × (Nat → T) :=
  pipelinedLast (threadCount banks elementsPerBank n (unique addresses))
    (fun tid prev =>
      let results := m.readVecThread n addresses tid prev
      (results, results)) prev

/-- A thread of `write_vec` at bank `i`. -/
def writeVecBank (writes : Nat → Option (Nat × T)) (tid : Nat)
    (m : PipelinedMemory T banks elementsPerBank) (i : Nat) :
    PipelinedMemory T banks elementsPerBank :=
  match scheduleRequests n (addressToBankIndex banks elementsPerBank)
      (fun k => (writes k).map Prod.fst) tid i with
  | some k =>
    match writes k with
    | some (addr, data) => m.writeBank (i, (decomposeAddress banks elementsPerBank addr).2) data
    | none => m
  | none => m

/-- `write_vec` -/
def writeVec (writes : Nat → Option (Nat × T)) : PipelinedMemory T banks elementsPerBank :=
  (List.range (threadCount banks elementsPerBank n fun k => (writes k).map Prod.fst)).foldl
    (fun m tid => (List.range banks).foldl (writeVecBank n writes tid) m) m

/-- A thread of `atomically_vec` at bank `i`, with the results of the thread so far. -/
def atomicallyVecBank (addresses : Nat → Option Nat) (modify : T → Nat → T) (tid : Nat)
    (s : PipelinedMemory T banks elementsPerBank × (Nat → Option (T × T))) (i : Nat) :
    PipelinedMemory T banks elementsPerBank × (Nat → Option (T × T)) :=
  match scheduleRequests n (addressToBankIndex banks elementsPerBank) addresses tid i with
  | some k =>
    match addresses k with
    | some addr =>
      let place := (i, (decomposeAddress banks elementsPerBank addr).2)
      let old := s.1.readBank place
      let new := modify old k
      (s.1.writeBank place new, fun j => if j = k then some (old, new) else s.2 j)
    | none => s
  | none => s

/-- A thread of `atomically_vec`. -/
def atomicallyVecThread (addresses : Nat → Option Nat) (modify : T → Nat → T) (tid : Nat)
    (s : PipelinedMemory T banks elementsPerBank × (Nat → T × T)) :
    PipelinedMemory T banks elementsPerBank × (Nat → T × T) :=
  let r := (List.range banks).foldl (atomicallyVecBank n addresses modify tid)
    (s.1, fun _ => none)
  (r.1, fun k => (r.2 k).getD (s.2 k))

/-- `atomically_vec`: the result, the memory and the state that stays for the next call. -/
def atomicallyVec (addresses : Nat → Option Nat) (modify : T → Nat → T) (prev : Nat → T × T) :
    (Nat → T × T) × PipelinedMemory T banks elementsPerBank × (Nat → T × T) :=
  pipelinedLast (threadCount banks elementsPerBank n addresses)
    (fun tid s =>
      let s := atomicallyVecThread n addresses modify tid s
      (s.2, s)) (m, prev)

end Operations

/-! ## The assertions -/

/-- The assertions of a call that counts, schedules and serves these requests. `ok` is the
assertion on the request that a bank serves. -/
structure Asserts (banks elementsPerBank n : Nat) (requests : Nat → Option Nat)
    (ok : Nat → Nat → Prop) : Prop where
  validated : validateBankIndices n banks (addressToBankIndex banks elementsPerBank) requests = true
  threads : pipelinedAssert (indexWidth n) (threadCount banks elementsPerBank n requests)
  served : ∀ tid < threadCount banks elementsPerBank n requests, ∀ i < banks, ∀ k,
    scheduleRequests n (addressToBankIndex banks elementsPerBank) requests tid i = some k →
      ok i k

/-- The assertions of `read_vec`. -/
def ReadVecAsserts (banks elementsPerBank n : Nat) (addresses : Nat → Nat) : Prop :=
  Asserts banks elementsPerBank n (unique addresses) fun i k =>
    (decomposeAddress banks elementsPerBank (addresses k)).1 = i

/-- The assertions of `write_vec` and `atomically_vec`. -/
def WriteVecAsserts (banks elementsPerBank n : Nat) (addresses : Nat → Option Nat) : Prop :=
  Asserts banks elementsPerBank n addresses fun i k =>
    ∃ addr, addresses k = some addr ∧ (decomposeAddress banks elementsPerBank addr).1 = i

/-! ## The requests of a call -/

section Requests

variable {n : Nat} {requests : Nat → Option Nat}

/-- The valid addresses are in the memory. -/
def Inside (banks elementsPerBank n : Nat) (requests : Nat → Option Nat) : Prop :=
  ∀ k < n, ∀ addr, requests k = some addr → addr < banks * elementsPerBank

theorem isRequestOf_iff {addressToBankIndex : Nat → Nat} {b k : Nat} :
    isRequestOf addressToBankIndex requests b k = true ↔
      ∃ addr, requests k = some addr ∧ addressToBankIndex addr = b := by
  unfold isRequestOf
  cases hk : requests k with
  | none => simp
  | some addr => simp

theorem requestsPerBank_le_threadCount {b : Nat} (hb : b < banks) :
    requestsPerBank n (addressToBankIndex banks elementsPerBank) requests b ≤
      threadCount banks elementsPerBank n requests :=
  (maximumOfBanks_spec _ (by omega)).1 b hb

theorem threadCount_le (hn : 0 < n) (hbanks : 0 < banks) :
    threadCount banks elementsPerBank n requests ≤ n := by
  obtain ⟨b, -, hb⟩ := (maximumOfBanks_spec
    (requestsPerBank n (addressToBankIndex banks elementsPerBank) requests) hbanks).2
  rw [threadCount, hb, requestsPerBank_eq_count hn]
  exact Nat.count_le _

omit [Inhabited T] in
theorem foldl_const {l : List Nat} {f : Nat → T} {v : T} (h : ∀ j ∈ l, f j = v) (hne : l ≠ [])
    (x : T) : l.foldl (fun _ j => f j) x = v := by
  induction l generalizing x with
  | nil => exact absurd rfl hne
  | cons j l ih =>
    rw [List.foldl_cons]
    cases l with
    | nil => exact h j List.mem_cons_self
    | cons j' l => exact ih (fun i hi => h i (List.mem_cons_of_mem j hi)) (by simp) _

/-- What the schedule serves: a valid request, in its own bank. -/
theorem served_own_bank {tid b k : Nat} (hn : 0 < n)
    (h : scheduleRequests n (addressToBankIndex banks elementsPerBank) requests tid b = some k) :
    k < n ∧ ∃ addr, requests k = some addr ∧ addressToBankIndex banks elementsPerBank addr = b := by
  obtain ⟨hk, hrequest, -⟩ := (scheduleRequests_eq_some hn).mp h
  exact ⟨hk, isRequestOf_iff.mp hrequest⟩

/-- A valid request is served in one iteration of the call and no other, by one bank. -/
theorem served_exactly_once {k addr : Nat} (hn : 0 < n)
    (hinside : Inside banks elementsPerBank n requests) (hk : k < n)
    (haddr : requests k = some addr) :
    ∃! p : Nat × Nat, p.1 < threadCount banks elementsPerBank n requests ∧ p.2 < banks ∧
      scheduleRequests n (addressToBankIndex banks elementsPerBank) requests p.1 p.2 = some k := by
  have hbank := (decomposeAddress_lt (hinside k hk addr haddr)).1
  have hrequest : isRequestOf (addressToBankIndex banks elementsPerBank) requests
      (addressToBankIndex banks elementsPerBank addr) k = true :=
    isRequestOf_iff.mpr ⟨addr, haddr, rfl⟩
  refine ⟨(Nat.count (isRequestOf (addressToBankIndex banks elementsPerBank) requests
    (addressToBankIndex banks elementsPerBank addr) · = true) k,
    addressToBankIndex banks elementsPerBank addr), ⟨?_, hbank,
    (scheduleRequests_eq_some hn).mpr ⟨hk, hrequest, rfl⟩⟩, ?_⟩
  · refine Nat.lt_of_lt_of_le ?_ (requestsPerBank_le_threadCount hbank)
    rw [requestsPerBank_eq_count hn]
    exact Nat.count_strict_mono hrequest hk
  · rintro ⟨tid, b⟩ ⟨-, -, hserved⟩
    obtain ⟨-, addr', haddr', hb⟩ := served_own_bank hn hserved
    rw [haddr, Option.some.injEq] at haddr'
    subst haddr' hb
    exact Prod.ext ((scheduleRequests_eq_some hn).mp hserved).2.2.symm rfl

theorem asserts_of_inside (hn : 0 < n) (hbanks : 0 < banks)
    (hinside : Inside banks elementsPerBank n requests) {ok : Nat → Nat → Prop}
    (hok : ∀ i k addr, requests k = some addr →
      (decomposeAddress banks elementsPerBank addr).1 = i → ok i k) :
    Asserts banks elementsPerBank n requests ok where
  validated := by
    rw [validateBankIndices, List.all_eq_true]
    intro k hk
    cases hrequest : requests k with
    | none => rfl
    | some addr =>
      exact decide_eq_true (decomposeAddress_lt
        (hinside k (List.mem_range.mp hk) addr hrequest)).1
  threads := by
    rw [pipelinedAssert, Nat.one_shiftLeft]
    exact (threadCount_le hn hbanks).trans (le_two_pow_indexWidth n)
  served tid _ i _ k h := by
    obtain ⟨-, addr, haddr, hb⟩ := served_own_bank hn h
    exact hok i k addr haddr hb

end Requests

/-! ## Accesses in some order -/

section Order

variable {addresses : Nat → Option Nat} {modify : T → Nat → T} {n : Nat}

/-- The access of request `k`, with the results of the accesses so far. -/
def access (addresses : Nat → Option Nat) (modify : T → Nat → T)
    (s : PipelinedMemory T banks elementsPerBank × (Nat → Option (T × T))) (k : Nat) :
    PipelinedMemory T banks elementsPerBank × (Nat → Option (T × T)) :=
  match addresses k with
  | some addr =>
    let r := s.1.atomically addr (modify · k)
    (r.2, fun j => if j = k then some r.1 else s.2 j)
  | none => s

theorem read_access (s : PipelinedMemory T banks elementsPerBank × (Nat → Option (T × T)))
    (hinside : Inside banks elementsPerBank n addresses) {j : Nat} (hj : j < n) (addr : Nat) :
    (access addresses modify s j).1.read addr =
      if addresses j = some addr then modify (s.1.read addr) j else s.1.read addr := by
  unfold access
  cases hrequest : addresses j with
  | none => simp
  | some addr' =>
    by_cases heq : addr' = addr
    · subst heq
      rw [if_pos rfl]
      exact s.1.read_write_self (hinside j hj addr' hrequest) _
    · rw [if_neg (by simpa using heq)]
      exact s.1.read_write_of_ne heq _

theorem result_access (s : PipelinedMemory T banks elementsPerBank × (Nat → Option (T × T)))
    {k addr : Nat} (hk : addresses k = some addr) (j : Nat) :
    (access addresses modify s j).2 k =
      if k = j then some (s.1.read addr, modify (s.1.read addr) j) else s.2 k := by
  unfold access
  by_cases heq : k = j
  · subst heq
    simp [hk, atomically]
  · cases addresses j with
    | none => simp [heq]
    | some addr' => simp [heq]

/-- An element after accesses in some order: only those to its address count. -/
theorem read_foldl_access (hinside : Inside banks elementsPerBank n addresses) {order : List Nat}
    (horder : ∀ j ∈ order, j < n)
    (s : PipelinedMemory T banks elementsPerBank × (Nat → Option (T × T))) (addr : Nat) :
    (order.foldl (access addresses modify) s).1.read addr =
      (order.filter fun j => decide (addresses j = some addr)).foldl modify (s.1.read addr) := by
  induction order generalizing s with
  | nil => rfl
  | cons j order ih =>
    rw [List.foldl_cons, ih fun j' hj' => horder j' (List.mem_cons_of_mem j hj'),
      read_access s hinside (horder j List.mem_cons_self)]
    by_cases heq : addresses j = some addr
    · simp [heq]
    · simp [heq]

/-- The result of a request after accesses in some order: only those to its address count. -/
theorem result_foldl_access (hinside : Inside banks elementsPerBank n addresses)
    {order : List Nat} (horder : ∀ j ∈ order, j < n)
    (s : PipelinedMemory T banks elementsPerBank × (Nat → Option (T × T))) {k addr : Nat}
    (hk : addresses k = some addr) :
    (order.foldl (access addresses modify) s).2 k =
      ((order.filter fun j => decide (addresses j = some addr)).foldl
        (fun (v : T × Option (T × T)) j =>
          (modify v.1 j, if k = j then some (v.1, modify v.1 j) else v.2))
        (s.1.read addr, s.2 k)).2 := by
  induction order generalizing s with
  | nil => rfl
  | cons j order ih =>
    rw [List.foldl_cons, ih fun j' hj' => horder j' (List.mem_cons_of_mem j hj'),
      read_access s hinside (horder j List.mem_cons_self), result_access s hk]
    by_cases heq : addresses j = some addr
    · simp [heq]
    · have hne : k ≠ j := by
        rintro rfl
        exact heq hk
      simp [heq, hne]

variable (modify) in
/-- The order of accesses to different elements does not matter. -/
theorem foldl_access_congr (hinside : Inside banks elementsPerBank n addresses)
    {order order' : List Nat} (horder : ∀ j ∈ order, j < n) (horder' : ∀ j ∈ order', j < n)
    (hsame : ∀ j < n, ∀ addr, addresses j = some addr →
      order.filter (fun j => decide (addresses j = some addr)) =
        order'.filter fun j => decide (addresses j = some addr))
    (s : PipelinedMemory T banks elementsPerBank × (Nat → Option (T × T))) :
    (∀ addr, (order.foldl (access addresses modify) s).1.read addr =
      (order'.foldl (access addresses modify) s).1.read addr) ∧
    ∀ k < n, ∀ addr, addresses k = some addr →
      (order.foldl (access addresses modify) s).2 k =
        (order'.foldl (access addresses modify) s).2 k := by
  constructor
  · intro addr
    rw [read_foldl_access hinside horder, read_foldl_access hinside horder']
    by_cases hany : ∃ j < n, addresses j = some addr
    · obtain ⟨j, hj, haddr⟩ := hany
      rw [hsame j hj addr haddr]
    · -- No request has the address.
      have hnil : ∀ l : List Nat, (∀ j ∈ l, j < n) →
          l.filter (fun j => decide (addresses j = some addr)) = [] := by
        intro l hl
        rw [List.filter_eq_nil_iff]
        intro j hj
        simp only [decide_eq_true_eq]
        exact fun h => hany ⟨j, hl j hj, h⟩
      rw [hnil order horder, hnil order' horder']
  · intro k hkn addr hk
    rw [result_foldl_access hinside horder s hk, result_foldl_access hinside horder' s hk,
      hsame k hkn addr hk]

variable (modify) in
/-- A request that is served has a result. -/
theorem isSome_foldl_access {order : List Nat}
    (s : PipelinedMemory T banks elementsPerBank × (Nat → Option (T × T))) {k addr : Nat}
    (hk : addresses k = some addr) (hserved : k ∈ order ∨ (s.2 k).isSome = true) :
    ((order.foldl (access addresses modify) s).2 k).isSome = true := by
  induction order generalizing s with
  | nil => exact hserved.resolve_left List.not_mem_nil
  | cons j order ih =>
    rw [List.foldl_cons]
    refine ih _ ?_
    rw [result_access s hk]
    by_cases heq : k = j
    · exact .inr (by simp [heq])
    · rw [if_neg heq]
      exact hserved.imp_left fun h => (List.mem_cons.mp h).resolve_left heq

/-- The accesses of a call are in an order that keeps the accesses to one element. -/
theorem accessOrder_spec (hn : 0 < n) (hinside : Inside banks elementsPerBank n addresses) :
    (∀ j ∈ accessOrder banks (threadCount banks elementsPerBank n addresses)
      (scheduleRequests n (addressToBankIndex banks elementsPerBank) addresses), j < n) ∧
    ∀ j < n, ∀ addr, addresses j = some addr →
      (accessOrder banks (threadCount banks elementsPerBank n addresses)
        (scheduleRequests n (addressToBankIndex banks elementsPerBank) addresses)).filter
          (fun j => decide (addresses j = some addr)) =
        (List.range n).filter fun j => decide (addresses j = some addr) := by
  constructor
  · intro j hj
    simp only [accessOrder, List.mem_flatMap, List.mem_filterMap] at hj
    obtain ⟨tid, -, b, -, hserved⟩ := hj
    exact (served_own_bank hn hserved).1
  · intro j hj addr haddr
    have hbank := (decomposeAddress_lt (hinside j hj addr haddr)).1
    exact filter_accessOrder hn hbank (requestsPerBank_le_threadCount hbank)

end Order

/-! ## The calls are accesses in the order of the schedule -/

section Calls

variable {n : Nat} (m : PipelinedMemory T banks elementsPerBank)

/-- A place in the bank that serves a request. -/
theorem place_eq {addr i : Nat} (h : addressToBankIndex banks elementsPerBank addr = i) :
    (i, (decomposeAddress banks elementsPerBank addr).2) =
      decomposeAddress banks elementsPerBank addr := by
  rw [← h]
  rfl

/-- The banks of a thread, with results `r` of the threads before it. -/
theorem foldl_atomicallyVecBank (hn : 0 < n) (addresses : Nat → Option Nat) (modify : T → Nat → T)
    (tid : Nat) (bs : List Nat) (thisIteration r : Nat → Option (T × T)) :
    (bs.filterMap (scheduleRequests n (addressToBankIndex banks elementsPerBank) addresses
        tid)).foldl (access addresses modify) (m, fun k => (thisIteration k).or (r k)) =
      ((bs.foldl (atomicallyVecBank n addresses modify tid) (m, thisIteration)).1,
        fun k => ((bs.foldl (atomicallyVecBank n addresses modify tid)
          (m, thisIteration)).2 k).or (r k)) := by
  induction bs generalizing m thisIteration with
  | nil => rfl
  | cons i bs ih =>
    rw [List.filterMap_cons, List.foldl_cons]
    cases hserved : scheduleRequests n (addressToBankIndex banks elementsPerBank) addresses tid i with
    | none =>
      simp only [atomicallyVecBank, hserved]
      exact ih m thisIteration
    | some k =>
      obtain ⟨-, addr, haddr, hbank⟩ := served_own_bank hn hserved
      simp only [List.foldl_cons]
      have hstep : access addresses modify (m, fun k => (thisIteration k).or (r k)) k =
          ((atomicallyVecBank n addresses modify tid (m, thisIteration) i).1,
            fun k => ((atomicallyVecBank n addresses modify tid (m, thisIteration) i).2 k).or
              (r k)) := by
        simp only [access, atomicallyVecBank, hserved, haddr, place_eq hbank, atomically]
        refine Prod.ext rfl ?_
        funext j
        by_cases hj : j = k
        · simp [hj, read]
        · simp [hj]
      rw [hstep]
      exact ih _ _

/-- The threads of `atomically_vec` are the accesses in the order of the schedule. -/
theorem foldl_atomicallyVecThread (hn : 0 < n) (addresses : Nat → Option Nat)
    (modify : T → Nat → T) (prev : Nat → T × T) (count : Nat) :
    let s := (accessOrder banks count (scheduleRequests n
      (addressToBankIndex banks elementsPerBank) addresses)).foldl (access addresses modify)
        (m, fun _ => none)
    (List.range count).foldl (fun s tid => atomicallyVecThread n addresses modify tid s) (m, prev) =
      (s.1, fun k => (s.2 k).getD (prev k)) := by
  induction count with
  | zero => rfl
  | succ count ih =>
    simp only [accessOrder, List.range_succ, List.foldl_append, List.flatMap_append,
      List.foldl_cons, List.foldl_nil, List.flatMap_singleton] at ih ⊢
    rw [ih]
    have hthread := foldl_atomicallyVecBank
      (((List.range count).flatMap fun iteration => (List.range banks).filterMap
        (scheduleRequests n (addressToBankIndex banks elementsPerBank) addresses iteration)).foldl
          (access addresses modify) (m, fun _ => none)).1 hn addresses modify count
      (List.range banks) (fun _ => none)
      (((List.range count).flatMap fun iteration => (List.range banks).filterMap
        (scheduleRequests n (addressToBankIndex banks elementsPerBank) addresses iteration)).foldl
          (access addresses modify) (m, fun _ => none)).2
    simp only [Option.none_or] at hthread
    rw [hthread]
    refine Prod.ext rfl ?_
    funext k
    simp only [atomicallyVecThread]
    cases (List.foldl (atomicallyVecBank n addresses modify count) _ (List.range banks)).2 k <;> rfl

/-- The banks of a thread of `write_vec`. -/
theorem foldl_writeVecBank (hn : 0 < n) (writes : Nat → Option (Nat × T)) (tid : Nat)
    (bs : List Nat) (r : Nat → Option (T × T)) :
    bs.foldl (writeVecBank n writes tid) m =
      ((bs.filterMap (scheduleRequests n (addressToBankIndex banks elementsPerBank)
          (fun k => (writes k).map Prod.fst) tid)).foldl
        (access (fun k => (writes k).map Prod.fst)
          fun _ k => ((writes k).map Prod.snd).getD default) (m, r)).1 := by
  induction bs generalizing m r with
  | nil => rfl
  | cons i bs ih =>
    rw [List.filterMap_cons, List.foldl_cons]
    cases hserved : scheduleRequests n (addressToBankIndex banks elementsPerBank)
        (fun k => (writes k).map Prod.fst) tid i with
    | none =>
      simp only [writeVecBank, hserved]
      exact ih m r
    | some k =>
      obtain ⟨-, addr, haddr, hbank⟩ := served_own_bank hn hserved
      obtain ⟨⟨addr', data⟩, hwrite, rfl⟩ := Option.map_eq_some_iff.mp haddr
      have hstep : writeVecBank n writes tid m i = (access (fun k => (writes k).map Prod.fst)
          (fun _ k => ((writes k).map Prod.snd).getD default) (m, r) k).1 := by
        simp only [writeVecBank, hserved, hwrite, access, Option.map_some, place_eq hbank,
          atomically, Option.getD_some, write]
      rw [List.foldl_cons, hstep]
      exact ih _ _

/-- The threads of `write_vec` are the accesses in the order of the schedule. -/
theorem writeVec_eq_foldl_access (hn : 0 < n) (writes : Nat → Option (Nat × T)) :
    m.writeVec n writes =
      ((accessOrder banks (threadCount banks elementsPerBank n fun k => (writes k).map Prod.fst)
        (scheduleRequests n (addressToBankIndex banks elementsPerBank)
          fun k => (writes k).map Prod.fst)).foldl
        (access (fun k => (writes k).map Prod.fst)
          fun _ k => ((writes k).map Prod.snd).getD default)
        (m, fun _ => none)).1 := by
  rw [writeVec]
  generalize threadCount banks elementsPerBank n _ = count
  induction count with
  | zero => rfl
  | succ count ih =>
    simp only [accessOrder, List.range_succ, List.foldl_append, List.flatMap_append,
      List.foldl_cons, List.foldl_nil, List.flatMap_singleton] at ih ⊢
    rw [ih]
    exact foldl_writeVecBank _ hn writes count (List.range banks) _

/-! ## What the threads of a read return -/

/-- The first element with the value of element `k` is valid. -/
theorem exists_unique {α : Type*} [DecidableEq α] (xs : Nat → α) (k : Nat) :
    ∃ j ≤ k, xs j = xs k ∧ unique xs j = some (xs j) := by
  have hfirst : ∃ j, xs j = xs k := ⟨k, rfl⟩
  refine ⟨Nat.find hfirst, Nat.find_min' hfirst rfl, Nat.find_spec hfirst, ?_⟩
  rw [unique, if_neg]
  rw [List.any_eq_true]
  rintro ⟨j, hj, heq⟩
  refine Nat.find_min hfirst (List.mem_range.mp hj) ?_
  rw [beq_iff_eq.mp heq, Nat.find_spec hfirst]

theorem eq_of_unique {α : Type*} [DecidableEq α] {xs : Nat → α} {k : Nat} {x : α}
    (h : unique xs k = some x) : xs k = x := by
  rw [unique] at h
  split at h
  · exact absurd h (by simp)
  · exact Option.some.inj h

/-- A thread that serves an address returns the element at the address. -/
theorem readVecThread_of_served (hn : 0 < n) {addresses : Nat → Nat} {tid k i : Nat}
    (h : (scheduleReadRequests n banks (addressToBankIndex banks elementsPerBank) addresses
      tid).2 k = some i) (prev : Nat → T) :
    m.readVecThread n addresses tid prev k = m.read (addresses k) := by
  have hthread : m.readVecThread n addresses tid prev k =
      match scheduleRequests n (addressToBankIndex banks elementsPerBank) (unique addresses)
        tid i with
      | some k => m.readBank (i, (decomposeAddress banks elementsPerBank (addresses k)).2)
      | none => default := by
    simp only [readVecThread, h]
    rfl
  simp only [scheduleReadRequests] at h
  split at h
  · rename_i hvalid
    obtain ⟨b, -, hb⟩ := List.any_eq_true.mp hvalid
    rw [Option.some.injEq] at h
    cases hserved : scheduleRequests n (addressToBankIndex banks elementsPerBank)
        (unique addresses) tid b with
    | none => simp [hserved] at hb
    | some j =>
      simp only [hserved, beq_iff_eq] at hb
      obtain ⟨-, addr, haddr, hbank⟩ := served_own_bank hn hserved
      -- The bank of the address is the one that serves it.
      rw [← eq_of_unique haddr, hb, h] at hbank
      subst hbank
      rw [hthread, hserved]
      simp only [hb]
      rw [place_eq h, read]
  · exact absurd h (by simp)

/-- Every address is served by one of the threads. -/
theorem exists_served (hn : 0 < n) {addresses : Nat → Nat}
    (hinside : Inside banks elementsPerBank n (unique addresses)) {k : Nat} (hk : k < n) :
    ∃ tid < threadCount banks elementsPerBank n (unique addresses), ∃ i,
      (scheduleReadRequests n banks (addressToBankIndex banks elementsPerBank) addresses
        tid).2 k = some i := by
  obtain ⟨j, hjk, heq, hunique⟩ := exists_unique addresses k
  obtain ⟨⟨tid, b⟩, ⟨htid, hb, hserved⟩, -⟩ :=
    served_exactly_once hn hinside (Nat.lt_of_le_of_lt hjk hk) hunique
  refine ⟨tid, htid, addressToBankIndex banks elementsPerBank (addresses k), ?_⟩
  simp only [scheduleReadRequests]
  rw [if_pos]
  rw [List.any_eq_true]
  exact ⟨b, List.mem_range.mpr hb, by simp [hserved, heq]⟩

theorem readVec_eq_read (hn : 0 < n) {addresses : Nat → Nat}
    (hinside : Inside banks elementsPerBank n (unique addresses)) (prev : Nat → T) {k : Nat}
    (hk : k < n) : (m.readVec n addresses prev).1 k = m.read (addresses k) := by
  -- An address that is served once stays served.
  have hthreads : ∀ count tid, tid < count → (∃ i,
      (scheduleReadRequests n banks (addressToBankIndex banks elementsPerBank) addresses
        tid).2 k = some i) →
      (List.range count).foldl (fun s tid => m.readVecThread n addresses tid s) prev k =
        m.read (addresses k) := by
    intro count
    induction count with
    | zero => exact fun tid h => absurd h (by omega)
    | succ count ih =>
      rintro tid hlt ⟨i, hi⟩
      rw [List.range_succ, List.foldl_append, List.foldl_cons, List.foldl_nil]
      cases hlast : (scheduleReadRequests n banks (addressToBankIndex banks elementsPerBank)
          addresses count).2 k with
      | some i' => exact m.readVecThread_of_served hn hlast _
      | none =>
        have hne : tid ≠ count := by
          rintro rfl
          rw [hi] at hlast
          exact absurd hlast (by simp)
        rw [← ih tid (by omega) ⟨i, hi⟩]
        simp only [readVecThread, hlast]
  obtain ⟨tid, htid, hserved⟩ := exists_served hn hinside hk
  have hlast := pipelinedLast_eq (by omega : 0 < threadCount banks elementsPerBank n
    (unique addresses)) (fun tid s => m.readVecThread n addresses tid s) id prev
  exact (congrFun (congrArg Prod.fst hlast) k).trans (hthreads _ tid htid hserved)

theorem atomicallyVec_eq (hn : 0 < n) {addresses : Nat → Option Nat}
    (hinside : Inside banks elementsPerBank n addresses) (modify : T → Nat → T)
    (prev : Nat → T × T) :
    (∀ addr, (m.atomicallyVec n addresses modify prev).2.1.read addr =
      ((List.range n).foldl (access addresses modify) (m, fun _ => none)).1.read addr) ∧
    ∀ k < n, ∀ addr, addresses k = some addr →
      (m.atomicallyVec n addresses modify prev).1 k =
        (((List.range n).foldl (access addresses modify) (m, fun _ => none)).2 k).getD (prev k) := by
  obtain ⟨horder, hsame⟩ := accessOrder_spec hn hinside
  obtain ⟨hread, hresult⟩ := foldl_access_congr modify hinside horder
    (fun j hj => List.mem_range.mp hj) hsame (m, fun _ => none)
  have hthreads := m.foldl_atomicallyVecThread hn addresses modify prev
    (threadCount banks elementsPerBank n addresses)
  rcases Nat.eq_zero_or_pos (threadCount banks elementsPerBank n addresses) with hzero | hpos
  · -- Without any thread there is no valid address.
    have hnone : ∀ k < n, ∀ addr, addresses k ≠ some addr := by
      intro k hk addr haddr
      obtain ⟨p, ⟨hp, -⟩, -⟩ := served_exactly_once hn hinside hk haddr
      omega
    refine ⟨fun addr => ?_, fun k hk addr haddr => absurd haddr (hnone k hk addr)⟩
    rw [← hread addr, atomicallyVec, hzero]
    rfl
  · have hlast := pipelinedLast_eq hpos
      (fun tid s => atomicallyVecThread n addresses modify tid s) Prod.snd (m, prev)
    rw [hthreads] at hlast
    have hcall : m.atomicallyVec n addresses modify prev = _ := hlast
    refine ⟨fun addr => ?_, fun k hk addr haddr => ?_⟩
    · rw [hcall]
      exact hread addr
    · rw [hcall, ← hresult k hk addr haddr]

theorem writeVec_read (hn : 0 < n) {writes : Nat → Option (Nat × T)}
    (hinside : Inside banks elementsPerBank n fun k => (writes k).map Prod.fst) (addr : Nat) :
    (m.writeVec n writes).read addr =
      ((List.range n).filter fun j => decide ((writes j).map Prod.fst = some addr)).foldl
        (fun _ k => ((writes k).map Prod.snd).getD default) (m.read addr) := by
  obtain ⟨horder, hsame⟩ := accessOrder_spec hn hinside
  rw [writeVec_eq_foldl_access m hn,
    (foldl_access_congr _ hinside horder (fun j hj => List.mem_range.mp hj) hsame _).1,
    read_foldl_access hinside fun j hj => List.mem_range.mp hj]

end Calls

/-! ## Vector accesses -/

/-- Vector accesses are accesses to the elements: reads return every element, writes to distinct
addresses change these elements only, and atomic accesses are the ones in the order of the indices.
The schedule serves every request in its own bank exactly once, and the assertions hold. -/
theorem vectorAccesses_elementwise (T : Type) [Inhabited T] (banks elementsPerBank n : Nat)
    (hbanks : 0 < banks) (hn : 0 < n) (m : PipelinedMemory T banks elementsPerBank) :
    (∀ (addresses : Nat → Nat) (prev : Nat → T),
      (∀ k < n, addresses k < banks * elementsPerBank) →
      ReadVecAsserts banks elementsPerBank n addresses ∧
      ∀ k < n, (m.readVec n addresses prev).1 k = m.read (addresses k)) ∧
    (∀ writes : Nat → Option (Nat × T),
      Inside banks elementsPerBank n (fun k => (writes k).map Prod.fst) →
      (∀ j < n, ∀ k < n, ∀ addr v w, writes j = some (addr, v) → writes k = some (addr, w) →
        j = k) →
      WriteVecAsserts banks elementsPerBank n (fun k => (writes k).map Prod.fst) ∧
      (∀ k < n, ∀ addr v, writes k = some (addr, v) → (m.writeVec n writes).read addr = v) ∧
      ∀ addr, (∀ k < n, ∀ v, writes k ≠ some (addr, v)) →
        (m.writeVec n writes).read addr = m.read addr) ∧
    (∀ (addresses : Nat → Option Nat) (modify : T → Nat → T) (prev : Nat → T × T),
      Inside banks elementsPerBank n addresses →
      let inOrder := (List.range n).foldl (access addresses modify) (m, fun _ => none)
      WriteVecAsserts banks elementsPerBank n addresses ∧
      (∀ addr, (m.atomicallyVec n addresses modify prev).2.1.read addr = inOrder.1.read addr) ∧
      ∀ k < n, ∀ addr, addresses k = some addr →
        inOrder.2 k = some ((m.atomicallyVec n addresses modify prev).1 k)) ∧
    (∀ requests : Nat → Option Nat, Inside banks elementsPerBank n requests →
      (∀ k < n, ∀ addr, requests k = some addr →
        ∃! p : Nat × Nat, p.1 < threadCount banks elementsPerBank n requests ∧ p.2 < banks ∧
          scheduleRequests n (addressToBankIndex banks elementsPerBank) requests p.1 p.2 =
            some k) ∧
      ∀ tid b k,
        scheduleRequests n (addressToBankIndex banks elementsPerBank) requests tid b = some k →
        k < n ∧ ∃ addr, requests k = some addr ∧
          addressToBankIndex banks elementsPerBank addr = b) := by
  refine ⟨?_, ?_, ?_, ?_⟩
  · intro addresses prev haddresses
    have hinside : Inside banks elementsPerBank n (unique addresses) := by
      intro k hk addr haddr
      rw [← eq_of_unique haddr]
      exact haddresses k hk
    refine ⟨asserts_of_inside hn hbanks hinside ?_,
      fun k hk => m.readVec_eq_read hn hinside prev hk⟩
    intro i k addr haddr hb
    rw [eq_of_unique haddr]
    exact hb
  · intro writes hinside hdistinct
    refine ⟨asserts_of_inside hn hbanks hinside fun i k addr haddr hb => ⟨addr, haddr, hb⟩, ?_, ?_⟩
    · intro k hk addr v hwrite
      rw [m.writeVec_read hn hinside]
      refine foldl_const ?_ ?_ _
      · intro j hj
        obtain ⟨hjn, hj⟩ := List.mem_filter.mp hj
        obtain ⟨⟨addr', w⟩, hw, rfl⟩ := Option.map_eq_some_iff.mp (of_decide_eq_true hj)
        obtain rfl := hdistinct j (List.mem_range.mp hjn) k hk _ w v hw hwrite
        simp [hwrite]
      · exact List.ne_nil_of_mem (List.mem_filter.mpr
          ⟨List.mem_range.mpr hk, decide_eq_true (by rw [hwrite]; rfl)⟩)
    · intro addr hnone
      rw [m.writeVec_read hn hinside, List.filter_eq_nil_iff.mpr]
      · rfl
      · intro j hj hwrite
        obtain ⟨⟨addr', w⟩, hw, rfl⟩ := Option.map_eq_some_iff.mp (of_decide_eq_true hwrite)
        exact hnone j (List.mem_range.mp hj) w hw
  · intro addresses modify prev hinside
    obtain ⟨hread, hresult⟩ := m.atomicallyVec_eq hn hinside modify prev
    refine ⟨asserts_of_inside hn hbanks hinside fun i k addr haddr hb => ⟨addr, haddr, hb⟩,
      hread, ?_⟩
    intro k hk addr haddr
    have hsome := isSome_foldl_access modify (m, fun _ => none) haddr
      (.inl (List.mem_range.mpr hk))
    obtain ⟨r, hr⟩ := Option.isSome_iff_exists.mp hsome
    rw [hresult k hk addr haddr, hr, Option.getD_some]
  · intro requests hinside
    exact ⟨fun k hk addr haddr => served_exactly_once hn hinside hk haddr,
      fun tid b k hserved => served_own_bank hn hserved⟩

/-- Calls with duplicate addresses and bank conflicts on two banks of two elements. -/
theorem vectorAccesses_elementwise_two_banks :
    let m : PipelinedMemory Nat 2 2 := ⟨#v[#v[10, 11], #v[12, 13]]⟩
    (m.readVec 2 (fun k => [3, 3].getD k 0) fun _ => 0).1 1 = 13 ∧
    (m.writeVec 2 fun k => [some (2, 5), some (3, 7)].getD k none).read 3 = 7 ∧
    (m.atomicallyVec 2 (fun k => [some 3, some 3].getD k none) (fun v k => v + k + 1)
      fun _ => (0, 0)).1 1 = (14, 16) := by
  intro m
  obtain ⟨hread, hwrite, hatomically, -⟩ :=
    vectorAccesses_elementwise Nat 2 2 2 (by decide) (by decide) m
  have hcases : ∀ k < 2, k = 0 ∨ k = 1 := by omega
  refine ⟨(hread _ _ (by decide)).2 1 (by decide), (hwrite _ ?_ ?_).2.1 1 (by decide) 3 7 rfl, ?_⟩
  · intro k hk addr haddr
    rcases hcases k hk with rfl | rfl <;> simp at haddr <;> omega
  · intro j hj k hk addr v w hv hw
    rcases hcases j hj with rfl | rfl <;> rcases hcases k hk with rfl | rfl <;>
      simp at hv hw <;> omega
  · have hresult := (hatomically (fun k => [some 3, some 3].getD k none) (fun v k => v + k + 1)
      (fun _ => (0, 0)) ?_).2.2 1 (by decide) 3 rfl
    · exact (Option.some.inj hresult).symm
    · intro k hk addr haddr
      rcases hcases k hk with rfl | rfl <;> simp at haddr <;> omega

end PipelinedMemory

end Kanagawa.Library
