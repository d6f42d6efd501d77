/-
  Kanagawa.Library.Parallel

  The calls that run their tasks on several replicas: `parallel`, which
  `parallel_for` and `parallel_map` are made of (`control/loop.k`), and
  `fork_join` (`control/async.k`).

  Each replica is a lane with a counter of completed tasks and a FIFO of their
  results. A call launches one task on every lane of its mask, waits until all
  of these lanes have a completed task, and dequeues one result from each of
  them. Calls pass every stage in call order and a lane finishes its tasks in
  launch order; otherwise the steps interleave in any way. Launching is one
  step, as a task that is launched later is one that takes longer.
-/
import Kanagawa.Library.Fifo

namespace Kanagawa.Library

open Kanagawa.Runs

/-! ## Lanes -/

/-- A lane with its tasks and the calls that use it. Tasks and results carry the number of their
call. -/
structure Lane (T : Type) (size : Nat) where
  /-- Calls whose task is launched and has not returned from the body. -/
  running : List Nat := []
  /-- Results of tasks that are at the wait of `enqueue`. -/
  finishing : List T := []
  /-- `_result_fifos[i]`, or `_returnFifo` -/
  fifo : Fifo T size
  /-- Tasks behind `enqueue`, before they increment the counter. -/
  incrementing : Nat := 0
  /-- `_complete_count[i]`, or `_returnCount` -/
  completeCount : Counter size := Counter.reset size 0
  /-- Calls behind the wait for all lanes, before they are at `dequeue`. -/
  collecting : List Nat := []
  /-- Calls in `dequeue`. -/
  dequeuing : List Nat := []
  /-- What the tasks have returned, in order. -/
  produced : List (Nat × T) := []
  /-- Calls behind the wait for all lanes. -/
  passed : List Nat := []
  /-- What `dequeue` has returned to the calls, in order. -/
  results : List (Nat × T) := []

/-- Which of the classes it is, and how many callers it has at most. -/
structure Mode where
  /-- `fork_join` rather than `parallel`: the FIFO blocks the tasks when it is full. -/
  forkJoin : Bool
  /-- `HasResult` -/
  hasResult : Bool
  /-- The most calls in flight. -/
  maxCallers : Nat

namespace Lane

variable {T : Type} {size : Nat}

/-- The test of one lane: in `test_and_dec` of `parallel`, or in `check` of `fork_join`. -/
def ready (mode : Mode) (l : Lane T size) (masked : Bool) : Bool :=
  if mode.forkJoin then !masked || l.completeCount.count.toNat != 0
  else decide (l.completeCount.count.toNat ≥ masked.toNat)

/-- The task of a call is launched. -/
def launch (l : Lane T size) (call : Nat) : Lane T size :=
  { l with running := l.running ++ [call] }

/-- The oldest task returns from the body. -/
def bodyReturns (mode : Mode) (l : Lane T size) (value : T) : Lane T size :=
  match l.running with
  | [] => l
  | call :: running =>
    let l := { l with running, produced := l.produced ++ [(call, value)] }
    if mode.hasResult then { l with finishing := l.finishing ++ [value] }
    else { l with incrementing := l.incrementing + 1 }

/-- A turn of the wait of `enqueue`. -/
def enqueueWait (mode : Mode) (l : Lane T size) : Lane T size :=
  match l.finishing with
  | [] => l
  | value :: finishing =>
    let returns := (l.fifo.writeSemaphore.waitMultiple mode.forkJoin 1#_).returns
    let l := { l with fifo := l.fifo.next mode.forkJoin false (.enqueueWait value) }
    if returns then { l with finishing } else l

/-- A step of `enqueue` or `dequeue` that leaves the task or the call in it. -/
def fifoStep (mode : Mode) (l : Lane T size) (e : Fifo.Event T) : Lane T size :=
  { l with fifo := l.fifo.next mode.forkJoin false e }

/-- The last step of `enqueue`. -/
def enqueuePost (mode : Mode) (l : Lane T size) : Lane T size :=
  { l.fifoStep mode .enqueuePost with incrementing := l.incrementing + 1 }

/-- `_complete_count[Index].increment()` -/
def increment (l : Lane T size) : Lane T size :=
  { l with incrementing := l.incrementing - 1, completeCount := l.completeCount.increment }

/-- All lanes of a call are ready: the counter of a lane goes down when it is one of them. -/
def serve (mode : Mode) (l : Lane T size) (call : Nat) (masked : Bool) : Lane T size :=
  let l := { l with completeCount := l.completeCount.subtract (BitVec.ofNat _ masked.toNat) }
  if masked then
    { l with
      passed := l.passed ++ [call]
      collecting := if mode.hasResult then l.collecting ++ [call] else l.collecting }
  else l

/-- The wait of `dequeue`, which does not block. -/
def dequeueWait (mode : Mode) (l : Lane T size) : Lane T size :=
  match l.collecting with
  | [] => l
  | call :: collecting =>
    { l.fifoStep mode .dequeueWait with collecting, dequeuing := l.dequeuing ++ [call] }

/-- The last step of `dequeue`: the oldest call in it has its result. -/
def dequeuePost (mode : Mode) (l : Lane T size) : Lane T size :=
  match l.dequeuing, l.fifo.ring.dequeued[l.results.length]? with
  | call :: dequeuing, some value =>
    { l.fifoStep mode .dequeuePost with dequeuing, results := l.results ++ [(call, value)] }
  | _, _ => l

section Unchanged

variable (mode : Mode) (l : Lane T size)

@[simp] theorem bodyReturns_passed (value : T) : (l.bodyReturns mode value).passed = l.passed := by
  unfold bodyReturns
  split
  · rfl
  · split <;> rfl

@[simp] theorem bodyReturns_results (value : T) :
    (l.bodyReturns mode value).results = l.results := by
  unfold bodyReturns
  split
  · rfl
  · split <;> rfl

@[simp] theorem enqueueWait_passed : (l.enqueueWait mode).passed = l.passed := by
  unfold enqueueWait
  split
  · rfl
  · dsimp only
    split <;> rfl

@[simp] theorem enqueueWait_results : (l.enqueueWait mode).results = l.results := by
  unfold enqueueWait
  split
  · rfl
  · dsimp only
    split <;> rfl

@[simp] theorem dequeueWait_passed : (l.dequeueWait mode).passed = l.passed := by
  unfold dequeueWait
  split <;> rfl

@[simp] theorem dequeueWait_results : (l.dequeueWait mode).results = l.results := by
  unfold dequeueWait
  split <;> rfl

@[simp] theorem dequeuePost_passed : (l.dequeuePost mode).passed = l.passed := by
  unfold dequeuePost
  split <;> rfl

theorem serve_results (call : Nat) (masked : Bool) :
    (l.serve mode call masked).results = l.results := by
  cases masked <;> rfl

theorem serve_passed (call : Nat) (masked : Bool) :
    (l.serve mode call masked).passed = l.passed ++ if masked then [call] else [] := by
  cases masked <;> simp [serve]

end Unchanged

/-- Tasks that have returned from the body and have not incremented the counter. -/
def completing (l : Lane T size) : Nat :=
  l.finishing.length + l.fifo.claiming.length + l.fifo.ring.storing.length + l.fifo.posting +
    l.incrementing

/-- The calls whose task on the lane is completed. -/
def completed (l : Lane T size) : List Nat :=
  (l.produced.map Prod.fst).take (l.produced.length - l.completing)

/-! ### The invariant of a lane -/

/-- `waiting` are the calls at the wait that use the lane. -/
structure Inv (mode : Mode) (l : Lane T size) (waiting : List Nat) : Prop where
  fifo : l.fifo.Inv
  /-- Tasks are launched in the order in which the calls pass the wait. -/
  ids : l.passed ++ waiting = l.produced.map Prod.fst ++ l.running
  /-- The counter stands at the tasks that are completed and not waited for. -/
  count : ∃ k, l.completeCount.StandsAt k ∧ k + l.passed.length + l.completing = l.produced.length
  values : mode.hasResult = true → l.produced.map Prod.snd = l.fifo.enqueued ++ l.finishing
  passed : mode.hasResult = true →
    l.passed = l.results.map Prod.fst ++ l.dequeuing ++ l.collecting
  dequeuing : l.dequeuing.length =
    l.fifo.dequeueClaiming + l.fifo.ring.loading.length + l.fifo.dequeuePosting
  results : l.results.map Prod.snd <+: l.fifo.ring.dequeued
  returned : l.results.length + l.fifo.dequeuePosting = l.fifo.ring.dequeued.length
  /-- Without results nothing is in the FIFO, nor on its way. -/
  idle : mode.hasResult = false →
    l.finishing = [] ∧ l.collecting = [] ∧ l.fifo.inTransit = 0 ∧ l.results = []

namespace Inv

variable {mode : Mode} {l : Lane T size} {waiting : List Nat}

/-- The values in the FIFO that were not waited for, and those of calls that go to dequeue them,
stand in its read semaphore. -/
theorem readSemaphore (h : Inv mode l waiting) (hresult : mode.hasResult = true) {k : Nat}
    (hk : k + l.passed.length + l.completing = l.produced.length) :
    l.fifo.readSemaphore.count.toNat = k + l.incrementing + l.collecting.length := by
  have hvalues := congrArg List.length (h.values hresult)
  have hpassed := congrArg List.length (h.passed hresult)
  have henqueued := congrArg List.length h.fifo.enqueued
  have hwritten := h.fifo.written
  have hdequeuing := h.dequeuing
  have hreturned := h.returned
  simp only [List.length_map, List.length_append, completing] at hvalues hpassed henqueued hk
  omega

/-- What is taken from the write semaphore. -/
theorem writeSemaphore (h : Inv mode l waiting) (hresult : mode.hasResult = true) :
    l.fifo.writeSemaphore.count.toNat + l.produced.length =
      size + l.finishing.length + l.results.length := by
  obtain ⟨k, -, hk⟩ := h.count
  have hread := h.readSemaphore hresult hk
  have hpassed := congrArg List.length (h.passed hresult)
  have hcount := h.fifo.count
  have hdequeuing := h.dequeuing
  simp only [List.length_map, List.length_append, completing, Fifo.inTransit] at hpassed hk hcount
  omega

theorem launch (h : Inv mode l waiting) (call : Nat) :
    Inv mode (l.launch call) (waiting ++ [call]) where
  fifo := h.fifo
  ids := by
    simp only [Lane.launch, ← List.append_assoc, h.ids]
  count := h.count
  values := h.values
  passed := h.passed
  dequeuing := h.dequeuing
  results := h.results
  returned := h.returned
  idle := h.idle

theorem bodyReturns (h : Inv mode l waiting) (hrunning : l.running ≠ []) (value : T) :
    Inv mode (l.bodyReturns mode value) waiting := by
  obtain ⟨call, running, hcons⟩ := List.exists_cons_of_ne_nil hrunning
  obtain ⟨k, hk, hcount⟩ := h.count
  have hids := h.ids
  rw [hcons] at hids
  simp only [Lane.bodyReturns, hcons]
  cases hresult : mode.hasResult with
  | true =>
    simp only [if_true]
    refine ⟨h.fifo, ?_, ⟨k, hk, ?_⟩, fun _ => ?_, h.passed, h.dequeuing, h.results, h.returned,
      fun h => absurd (hresult.symm.trans h) (by decide)⟩
    · simp only [hids, List.map_append, List.map_cons, List.map_nil, List.append_assoc,
        List.cons_append, List.nil_append]
    · simp only [completing, List.length_append, List.length_singleton] at hcount ⊢
      omega
    · simp only [List.map_append, h.values hresult, List.map_cons, List.map_nil,
        List.append_assoc]
  | false =>
    simp only [if_false, Bool.false_eq_true]
    refine ⟨h.fifo, ?_, ⟨k, hk, ?_⟩, fun hr => absurd (hresult.symm.trans hr) (by decide), h.passed,
      h.dequeuing, h.results, h.returned, h.idle⟩
    · simp only [hids, List.map_append, List.map_cons, List.map_nil, List.append_assoc,
        List.cons_append, List.nil_append]
    · simp only [completing, List.length_append, List.length_singleton] at hcount ⊢
      omega

theorem increment (h : Inv mode l waiting) (hpos : 0 < l.incrementing)
    (hroom : mode.hasResult = true ∨ waiting.length ≤ size) :
    Inv mode l.increment waiting := by
  obtain ⟨k, hk, hcount⟩ := h.count
  have hlt : k < size := by
    cases hresult : mode.hasResult with
    | true =>
      have hread := h.readSemaphore hresult hcount
      have hfifo := h.fifo.count
      omega
    | false =>
      have hle := hroom.resolve_left (by simp [hresult])
      have hids := congrArg List.length h.ids
      simp only [List.length_append, List.length_map, completing] at hids hcount
      omega
  refine ⟨h.fifo, h.ids, ⟨k + 1, hk.increment hlt, ?_⟩, h.values, h.passed, h.dequeuing, h.results,
    h.returned, h.idle⟩
  simp only [completing, Lane.increment] at hcount ⊢
  omega

theorem serve_of_masked (h : Inv mode l waiting) {call : Nat} {rest : List Nat}
    (hwaiting : waiting = call :: rest) (hready : l.ready mode true = true) :
    Inv mode (l.serve mode call true) rest := by
  obtain ⟨k, hk, hcount⟩ := h.count
  have hpos : 0 < k := by
    have := hk.toNat_count
    unfold ready at hready
    split at hready
    · simp only [Bool.not_true, Bool.false_or, bne_iff_ne, ne_eq] at hready
      omega
    · simp only [Bool.toNat_true, ge_iff_le, decide_eq_true_eq] at hready
      omega
  have hids := h.ids
  rw [hwaiting] at hids
  simp only [Lane.serve, if_true]
  refine ⟨h.fifo, ?_, ⟨k - 1, hk.decrement hpos, ?_⟩, h.values, fun hresult => ?_, h.dequeuing,
    h.results, h.returned, fun hresult => ?_⟩
  · simp only [← hids, List.append_assoc, List.cons_append, List.nil_append]
  · simp only [completing, List.length_append, List.length_singleton] at hcount ⊢
    omega
  · simp only [h.passed hresult, hresult, if_true, List.append_assoc]
  · simp only [hresult, if_false, Bool.false_eq_true]
    exact h.idle hresult

theorem serve_of_not_masked (h : Inv mode l waiting) (call : Nat) :
    Inv mode (l.serve mode call false) waiting := by
  have hzero : l.completeCount.subtract (BitVec.ofNat _ false.toNat) = l.completeCount := by
    simp [Counter.subtract]
  simp only [Lane.serve, hzero, if_false, Bool.false_eq_true]
  exact h

/-- The FIFO takes steps only when there are results. -/
theorem hasResult (h : Inv mode l waiting)
    (hbusy : l.finishing ≠ [] ∨ l.collecting ≠ [] ∨ 0 < l.fifo.inTransit) :
    mode.hasResult = true := by
  cases hresult : mode.hasResult with
  | true => rfl
  | false =>
    obtain ⟨hfinishing, hcollecting, hfifo, -⟩ := h.idle hresult
    rcases hbusy with hne | hne | hpos
    · exact absurd hfinishing hne
    · exact absurd hcollecting hne
    · omega

theorem fifoInv (h : Inv mode l waiting) (hsize : PointerWraps size) {e : Fifo.Event T}
    (he : l.fifo.Enabled mode.forkJoin false e) : (l.fifo.next mode.forkJoin false e).Inv :=
  (h.fifo.step hsize e he).2

theorem enqueueWait (h : Inv mode l waiting) (hwraps : mode.hasResult = true → PointerWraps size)
    (hfinishing : l.finishing ≠ [])
    (hroom : mode.forkJoin = true ∨ 1 ≤ l.fifo.writeSemaphore.count.toNat) :
    Inv mode (l.enqueueWait mode) waiting := by
  have hresult := h.hasResult (.inl hfinishing)
  obtain ⟨value, rest, hcons⟩ := List.exists_cons_of_ne_nil hfinishing
  obtain ⟨k, hk, hcount⟩ := h.count
  have hfifo := h.fifoInv (hwraps hresult) (show l.fifo.Enabled mode.forkJoin false (.enqueueWait value)
    from hroom)
  have hvalues := h.values hresult
  rw [hcons] at hvalues
  simp only [Lane.enqueueWait, hcons]
  cases hreturns : (l.fifo.writeSemaphore.waitMultiple mode.forkJoin 1#_).returns with
  | true =>
    simp only [if_true]
    refine ⟨hfifo, h.ids, ⟨k, hk, ?_⟩, fun _ => ?_, h.passed, ?_, ?_, ?_, fun hno => ?_⟩
    · simp only [completing, Fifo.next, hreturns, if_true, hcons, List.length_append,
        List.length_cons, List.length_nil] at hcount ⊢
      omega
    · simp only [Fifo.next, hreturns, if_true, hvalues, List.append_assoc, List.cons_append,
        List.nil_append]
    · simp only [Fifo.next, hreturns, if_true]
      exact h.dequeuing
    · simp only [Fifo.next, hreturns, if_true]
      exact h.results
    · simp only [Fifo.next, hreturns, if_true]
      exact h.returned
    · exact absurd (hresult.symm.trans hno) (by decide)
  | false =>
    simp only [if_false, Bool.false_eq_true]
    refine ⟨hfifo, h.ids, ⟨k, hk, ?_⟩, fun _ => ?_, h.passed, ?_, ?_, ?_, fun hno => ?_⟩
    · simp only [completing, Fifo.next, hreturns, if_false, Bool.false_eq_true, hcons]
        at hcount ⊢
      exact hcount
    · simp only [Fifo.next, hreturns, if_false, Bool.false_eq_true]
      exact hvalues
    · simp only [Fifo.next, hreturns, if_false, Bool.false_eq_true]
      exact h.dequeuing
    · simp only [Fifo.next, hreturns, if_false, Bool.false_eq_true]
      exact h.results
    · simp only [Fifo.next, hreturns, if_false, Bool.false_eq_true]
      exact h.returned
    · exact absurd (hresult.symm.trans hno) (by decide)

/-- A step of the FIFO that moves a task or a call on inside `enqueue` or `dequeue`. -/
theorem fifoStep (h : Inv mode l waiting) (hresult : mode.hasResult = true) {e : Fifo.Event T}
    (hfifo : (l.fifo.next mode.forkJoin false e).Inv)
    (henqueued : (l.fifo.next mode.forkJoin false e).enqueued = l.fifo.enqueued)
    (henqueue : (l.fifo.next mode.forkJoin false e).claiming.length +
        (l.fifo.next mode.forkJoin false e).ring.storing.length +
        (l.fifo.next mode.forkJoin false e).posting =
      l.fifo.claiming.length + l.fifo.ring.storing.length + l.fifo.posting)
    (hdequeue : (l.fifo.next mode.forkJoin false e).dequeueClaiming +
        (l.fifo.next mode.forkJoin false e).ring.loading.length +
        (l.fifo.next mode.forkJoin false e).dequeuePosting =
      l.fifo.dequeueClaiming + l.fifo.ring.loading.length + l.fifo.dequeuePosting)
    (hdequeued : l.fifo.ring.dequeued <+: (l.fifo.next mode.forkJoin false e).ring.dequeued)
    (hlength : (l.fifo.next mode.forkJoin false e).ring.dequeued.length + l.fifo.dequeuePosting =
      l.fifo.ring.dequeued.length + (l.fifo.next mode.forkJoin false e).dequeuePosting) :
    Inv mode (l.fifoStep mode e) waiting := by
  obtain ⟨k, hk, hcount⟩ := h.count
  have hdequeuing := h.dequeuing
  have hreturned := h.returned
  refine ⟨hfifo, h.ids, ⟨k, hk, ?_⟩, fun _ => ?_, h.passed, ?_, h.results.trans hdequeued, ?_,
    fun hno => absurd (hresult.symm.trans hno) (by decide)⟩
  · simp only [completing, Lane.fifoStep] at hcount ⊢
    omega
  · simp only [Lane.fifoStep, henqueued]
    exact h.values hresult
  · simp only [Lane.fifoStep]
    omega
  · simp only [Lane.fifoStep]
    omega

theorem enqueueClaim (h : Inv mode l waiting) (hwraps : mode.hasResult = true → PointerWraps size)
    (he : l.fifo.claiming ≠ []) : Inv mode (l.fifoStep mode .enqueueClaim) waiting := by
  obtain ⟨v, rest, hcons⟩ := List.exists_cons_of_ne_nil he
  have hresult := h.hasResult (.inr (.inr (by simp only [Fifo.inTransit, hcons, List.length_cons]; omega)))
  refine h.fifoStep hresult (h.fifoInv (hwraps hresult) he) ?_ ?_ ?_ ?_ ?_
  all_goals simp [Fifo.next, hcons, Ring.claimStore]
  omega

theorem enqueueStore (h : Inv mode l waiting) (hwraps : mode.hasResult = true → PointerWraps size)
    (he : l.fifo.ring.storing ≠ []) : Inv mode (l.fifoStep mode .enqueueStore) waiting := by
  obtain ⟨⟨v, index⟩, rest, hcons⟩ := List.exists_cons_of_ne_nil he
  have hresult := h.hasResult (.inr (.inr (by simp only [Fifo.inTransit, hcons, List.length_cons]; omega)))
  refine h.fifoStep hresult (h.fifoInv (hwraps hresult) he) ?_ ?_ ?_ ?_ ?_
  all_goals simp [Fifo.next, hcons, Ring.store]
  omega

theorem dequeueClaim (h : Inv mode l waiting) (hwraps : mode.hasResult = true → PointerWraps size)
    (he : 0 < l.fifo.dequeueClaiming) : Inv mode (l.fifoStep mode .dequeueClaim) waiting := by
  have hresult := h.hasResult (.inr (.inr (by simp only [Fifo.inTransit]; omega)))
  refine h.fifoStep hresult (h.fifoInv (hwraps hresult) he) ?_ ?_ ?_ ?_ ?_
  all_goals simp [Fifo.next, Ring.claimLoad]
  omega

theorem dequeueLoad (h : Inv mode l waiting)
    (hwraps : mode.hasResult = true → PointerWraps size) (unknown : T)
    (he : l.fifo.ring.loading ≠ []) :
    Inv mode (l.fifoStep mode (.dequeueLoad unknown)) waiting := by
  obtain ⟨index, rest, hcons⟩ := List.exists_cons_of_ne_nil he
  have hresult := h.hasResult (.inr (.inr (by simp only [Fifo.inTransit, hcons, List.length_cons]; omega)))
  refine h.fifoStep hresult (h.fifoInv (hwraps hresult) he) ?_ ?_ ?_ ?_ ?_
  all_goals simp [Fifo.next, hcons, Ring.load]
  all_goals omega

theorem enqueuePost (h : Inv mode l waiting) (hwraps : mode.hasResult = true → PointerWraps size)
    (he : 0 < l.fifo.posting) : Inv mode (l.enqueuePost mode) waiting := by
  have hresult := h.hasResult (.inr (.inr (by simp only [Fifo.inTransit]; omega)))
  obtain ⟨k, hk, hcount⟩ := h.count
  have hfifo := h.fifoInv (hwraps hresult) (show l.fifo.Enabled mode.forkJoin false .enqueuePost from he)
  refine ⟨hfifo, h.ids, ⟨k, hk, ?_⟩, h.values, h.passed,
    h.dequeuing, h.results, h.returned, fun hno => absurd (hresult.symm.trans hno) (by decide)⟩
  simp only [completing, Lane.enqueuePost, Lane.fifoStep, Fifo.next] at hcount ⊢
  omega

theorem dequeueWait (h : Inv mode l waiting) (hwraps : mode.hasResult = true → PointerWraps size)
    (he : l.collecting ≠ []) (hnonempty : 1 ≤ l.fifo.readSemaphore.count.toNat) :
    Inv mode (l.dequeueWait mode) waiting := by
  have hresult := h.hasResult (.inr (.inl he))
  obtain ⟨call, rest, hcons⟩ := List.exists_cons_of_ne_nil he
  have hfifo := h.fifoInv (hwraps hresult) (show l.fifo.Enabled mode.forkJoin false .dequeueWait
    from .inr hnonempty)
  -- A wait that does not block returns.
  have hreturns : (l.fifo.readSemaphore.waitMultiple false 1#_).returns = true := by
    simp [Semaphore.waitMultiple]
  have hpassed := h.passed hresult
  have hdequeuing := h.dequeuing
  rw [hcons] at hpassed
  simp only [Lane.dequeueWait, hcons]
  refine ⟨hfifo, h.ids, ?_, fun _ => ?_, fun _ => ?_, ?_, ?_, ?_,
    fun hno => absurd (hresult.symm.trans hno) (by decide)⟩
  · simp only [completing, Lane.fifoStep, Fifo.next, hreturns, if_true]
    exact h.count
  · simp only [Lane.fifoStep, Fifo.next, hreturns, if_true]
    exact h.values hresult
  · simp only [Lane.fifoStep, hpassed, List.append_assoc, List.cons_append, List.nil_append]
  · simp only [Lane.fifoStep, Fifo.next, hreturns, if_true, List.length_append,
      List.length_singleton]
    omega
  · simp only [Lane.fifoStep, Fifo.next, hreturns, if_true]
    exact h.results
  · simp only [Lane.fifoStep, Fifo.next, hreturns, if_true]
    exact h.returned

theorem dequeuePost (h : Inv mode l waiting) (hwraps : mode.hasResult = true → PointerWraps size)
    (he : 0 < l.fifo.dequeuePosting) :
    Inv mode (l.dequeuePost mode) waiting ∧
      (l.dequeuePost mode).results.length = l.results.length + 1 := by
  have hresult := h.hasResult (.inr (.inr (by simp only [Fifo.inTransit]; omega)))
  have hfifo := h.fifoInv (hwraps hresult) (show l.fifo.Enabled mode.forkJoin false .dequeuePost from he)
  have hdequeuing := h.dequeuing
  have hreturned := h.returned
  have hpassed := h.passed hresult
  have hlt : l.results.length < l.fifo.ring.dequeued.length := by omega
  obtain ⟨call, rest, hcons⟩ := List.exists_cons_of_ne_nil
    (List.ne_nil_of_length_pos (by omega : 0 < l.dequeuing.length))
  have hvalue := List.getElem?_eq_getElem hlt
  rw [hcons] at hpassed hdequeuing
  simp only [Lane.dequeuePost, hcons, hvalue]
  refine ⟨⟨hfifo, h.ids, h.count, h.values, fun _ => ?_, ?_, ?_, ?_,
    fun hno => absurd (hresult.symm.trans hno) (by decide)⟩, by simp⟩
  · simp only [Lane.fifoStep, hpassed, List.map_append, List.map_cons, List.map_nil,
      List.append_assoc, List.cons_append, List.nil_append]
  · simp only [Lane.fifoStep, Fifo.next, List.length_cons] at hdequeuing ⊢
    omega
  · simp only [Lane.fifoStep, Fifo.next, List.map_append, List.map_cons, List.map_nil]
    have htake : l.results.map Prod.snd = l.fifo.ring.dequeued.take l.results.length := by
      have := List.prefix_iff_eq_take.mp h.results
      rwa [List.length_map] at this
    have hnext : l.fifo.ring.dequeued.take l.results.length ++
        [l.fifo.ring.dequeued[l.results.length]] =
          l.fifo.ring.dequeued.take (l.results.length + 1) := by
      rw [List.take_add_one, hvalue, Option.toList_some]
    rw [htake, hnext]
    exact List.take_prefix _ _
  · simp only [Lane.fifoStep, Fifo.next, List.length_append, List.length_singleton]
    omega

end Inv

end Lane

/-! ## Calls -/

/-- A call: its number and its lanes, which are the first `count` ones for `parallel`. -/
structure Call where
  id : Nat
  mask : Nat → Bool

/-- The lanes with the calls in flight. -/
structure Parallel (T : Type) (size : Nat) where
  lanes : Nat → Lane T size
  /-- Calls at the wait for all lanes. -/
  waiting : List Call := []
  /-- Calls behind the wait that have not returned. -/
  served : List Call := []
  /-- How many calls were made. -/
  calls : Nat := 0

namespace Parallel

variable {T : Type} {size : Nat}

inductive Event (T : Type) where
  | call (mask : Nat → Bool)
  | bodyReturns (lane : Nat) (value : T)
  | enqueueWait (lane : Nat)
  | enqueueClaim (lane : Nat)
  | enqueueStore (lane : Nat)
  | enqueuePost (lane : Nat)
  | increment (lane : Nat)
  | test
  | dequeueWait (lane : Nat)
  | dequeueClaim (lane : Nat)
  | dequeueLoad (lane : Nat) (unknown : T)
  | dequeuePost (lane : Nat)
  | callReturns

/-- A step of one lane. -/
def onLane (s : Parallel T size) (lane : Nat) (f : Lane T size → Lane T size) :
    Parallel T size :=
  { s with lanes := fun i => if i = lane then f (s.lanes i) else s.lanes i }

/-- `test_and_dec`, or `check`: whether all lanes of the call are ready. -/
def allReady (mode : Mode) (n : Nat) (s : Parallel T size) (call : Call) : Bool :=
  (List.range n).all fun i => (s.lanes i).ready mode (call.mask i)

/-- The steps. The turn of the wait that does not find all lanes ready leaves the call there. -/
def next (mode : Mode) (n : Nat) (s : Parallel T size) : Event T → Parallel T size
  | .call mask =>
    { s with
      lanes := fun i => if mask i then (s.lanes i).launch s.calls else s.lanes i
      waiting := s.waiting ++ [⟨s.calls, mask⟩]
      calls := s.calls + 1 }
  | .bodyReturns lane value => s.onLane lane (·.bodyReturns mode value)
  | .enqueueWait lane => s.onLane lane (·.enqueueWait mode)
  | .enqueueClaim lane => s.onLane lane (·.fifoStep mode .enqueueClaim)
  | .enqueueStore lane => s.onLane lane (·.fifoStep mode .enqueueStore)
  | .enqueuePost lane => s.onLane lane (·.enqueuePost mode)
  | .increment lane => s.onLane lane Lane.increment
  | .test =>
    match s.waiting with
    | [] => s
    | call :: waiting =>
      if s.allReady mode n call then
        { s with
          lanes := fun i => (s.lanes i).serve mode call.id (call.mask i)
          waiting
          served := s.served ++ [call] }
      else s
  | .dequeueWait lane => s.onLane lane (·.dequeueWait mode)
  | .dequeueClaim lane => s.onLane lane (·.fifoStep mode .dequeueClaim)
  | .dequeueLoad lane unknown => s.onLane lane (·.fifoStep mode (.dequeueLoad unknown))
  | .dequeuePost lane => s.onLane lane (·.dequeuePost mode)
  | .callReturns => { s with served := s.served.tail }

/-- The call has the results of all its lanes. -/
def hasAllResults (n : Nat) (s : Parallel T size) (call : Call) : Bool :=
  (List.range n).all fun i =>
    !call.mask i || decide (call.id ∈ (s.lanes i).results.map Prod.fst)

/-- A step has a task or a call that takes it, and no more calls are in flight than the caller has
promised. A call returns when it has the results of all its lanes. -/
def Enabled (mode : Mode) (n : Nat) (s : Parallel T size) : Event T → Prop
  | .call _ => s.served.length + s.waiting.length < mode.maxCallers
  | .bodyReturns lane _ => lane < n ∧ (s.lanes lane).running ≠ []
  | .enqueueWait lane => lane < n ∧ (s.lanes lane).finishing ≠ []
  | .enqueueClaim lane => lane < n ∧ (s.lanes lane).fifo.claiming ≠ []
  | .enqueueStore lane => lane < n ∧ (s.lanes lane).fifo.ring.storing ≠ []
  | .enqueuePost lane => lane < n ∧ 0 < (s.lanes lane).fifo.posting
  | .increment lane => lane < n ∧ 0 < (s.lanes lane).incrementing
  | .test => s.waiting ≠ []
  | .dequeueWait lane => lane < n ∧ (s.lanes lane).collecting ≠ []
  | .dequeueClaim lane => lane < n ∧ 0 < (s.lanes lane).fifo.dequeueClaiming
  | .dequeueLoad lane _ => lane < n ∧ (s.lanes lane).fifo.ring.loading ≠ []
  | .dequeuePost lane => lane < n ∧ 0 < (s.lanes lane).fifo.dequeuePosting
  | .callReturns =>
    (s.served.head?.any fun call => !mode.hasResult || s.hasAllResults n call) = true

instance (mode : Mode) (n : Nat) (s : Parallel T size) :
    (e : Event T) → Decidable (Enabled mode n s e)
  | .call _ => inferInstanceAs (Decidable (_ < _))
  | .bodyReturns lane _ => inferInstanceAs (Decidable (_ ∧ (s.lanes lane).running ≠ []))
  | .enqueueWait lane => inferInstanceAs (Decidable (_ ∧ (s.lanes lane).finishing ≠ []))
  | .enqueueClaim lane => inferInstanceAs (Decidable (_ ∧ (s.lanes lane).fifo.claiming ≠ []))
  | .enqueueStore lane => inferInstanceAs (Decidable (_ ∧ (s.lanes lane).fifo.ring.storing ≠ []))
  | .enqueuePost _ => inferInstanceAs (Decidable (_ ∧ _ < _))
  | .increment _ => inferInstanceAs (Decidable (_ ∧ _ < _))
  | .test => inferInstanceAs (Decidable (s.waiting ≠ []))
  | .dequeueWait lane => inferInstanceAs (Decidable (_ ∧ (s.lanes lane).collecting ≠ []))
  | .dequeueClaim _ => inferInstanceAs (Decidable (_ ∧ _ < _))
  | .dequeueLoad lane _ =>
    inferInstanceAs (Decidable (_ ∧ (s.lanes lane).fifo.ring.loading ≠ []))
  | .dequeuePost _ => inferInstanceAs (Decidable (_ ∧ _ < _))
  | .callReturns => inferInstanceAs (Decidable (_ = true))

/-- Any number of calls, from memories with any content. -/
def system (mode : Mode) (n : Nat) (dataMem : Nat → Memory T size) :
    System (Parallel T size) (Event T) where
  start := { lanes := fun i => { fifo := { ring := { dataMem := dataMem i } } } }
  Enabled := Enabled mode n
  next := next mode n

instance (mode : Mode) (n : Nat) (dataMem : Nat → Memory T size) (s : Parallel T size)
    (e : Event T) : Decidable ((system mode n dataMem).Enabled s e) :=
  inferInstanceAs (Decidable (Enabled mode n s e))

/-- Every call gets its own results: what the calls have got are the values that the tasks have
returned, each with the number of its call, and no call has two tasks on a lane. A call is behind
the wait only when its tasks are completed, the counters count what is completed and not waited
for, and no FIFO that does not block is written while it is full or read while it is empty. -/
structure Safe (mode : Mode) (n : Nat) (s : Parallel T size) : Prop where
  results : ∀ i < n, (s.lanes i).results <+: (s.lanes i).produced
  once : ∀ i < n, ((s.lanes i).produced.map Prod.fst).Nodup
  completed : ∀ call ∈ s.served, ∀ i < n, call.mask i = true → call.id ∈ (s.lanes i).completed
  counters : ∀ i < n, (s.lanes i).passed.length ≤ (s.lanes i).completed.length ∧
    (s.lanes i).completeCount.StandsAt
      ((s.lanes i).completed.length - (s.lanes i).passed.length)
  notFull : ∀ i < n, (s.lanes i).finishing ≠ [] →
    mode.forkJoin = true ∨ 1 ≤ (s.lanes i).fifo.writeSemaphore.count.toNat
  notEmpty : ∀ i < n, (s.lanes i).collecting ≠ [] →
    1 ≤ (s.lanes i).fifo.readSemaphore.count.toNat

/-! ### The invariant -/

/-- What the class asks of its parameters: pointers to its FIFOs wrap where their memories end, and
there is room for the results of all calls in flight unless the FIFOs block. -/
structure Fits (mode : Mode) (size : Nat) : Prop where
  wraps : mode.hasResult = true → PointerWraps size
  callers : (mode.forkJoin = true ∧ mode.hasResult = true) ∨ mode.maxCallers ≤ size

/-- The calls that use a lane. -/
def idsOn (calls : List Call) (i : Nat) : List Nat := (calls.filter (·.mask i)).map (·.id)

theorem idsOn_append (calls calls' : List Call) (i : Nat) :
    idsOn (calls ++ calls') i = idsOn calls i ++ idsOn calls' i := by
  simp [idsOn]

theorem idsOn_cons (call : Call) (calls : List Call) (i : Nat) :
    idsOn (call :: calls) i = (if call.mask i then [call.id] else []) ++ idsOn calls i := by
  unfold idsOn
  cases hmask : call.mask i <;> simp [hmask]

theorem length_idsOn_le (calls : List Call) (i : Nat) : (idsOn calls i).length ≤ calls.length := by
  rw [idsOn, List.length_map]
  exact List.length_filter_le _ _

structure Inv (mode : Mode) (n : Nat) (s : Parallel T size) : Prop where
  lanes : ∀ i < n, (s.lanes i).Inv mode (idsOn s.waiting i)
  ordered : ∀ i < n, ((s.lanes i).passed ++ idsOn s.waiting i).Pairwise (· < ·)
  bound : ∀ i < n, ∀ c ∈ (s.lanes i).passed ++ idsOn s.waiting i, c < s.calls
  served : ∀ i < n, idsOn s.served i <:+ (s.lanes i).passed
  /-- A call that has returned has taken its results. -/
  room : mode.hasResult = true → ∀ i < n,
    (s.lanes i).passed.length ≤ (s.lanes i).results.length + (idsOn s.served i).length
  inFlight : s.served.length + s.waiting.length ≤ mode.maxCallers

variable {mode : Mode} {n : Nat} {s : Parallel T size}

/-- Two lists of pairs agree when their components do. -/
theorem prefix_of_maps {α β : Type} {l l' : List (α × β)}
    (hfst : l.map Prod.fst <+: l'.map Prod.fst) (hsnd : l.map Prod.snd <+: l'.map Prod.snd) :
    l <+: l' := by
  induction l generalizing l' with
  | nil => exact List.nil_prefix
  | cons x l ih =>
    cases l' with
    | nil => exact absurd hfst (by simp)
    | cons y l' =>
      simp only [List.map_cons, List.cons_prefix_cons] at hfst hsnd ⊢
      exact ⟨Prod.ext hfst.1 hsnd.1, ih hfst.2 hsnd.2⟩

/-- A task that is not in the FIFO yet finds room there. -/
theorem Inv.notFull (h : Inv mode n s) (hfits : Fits mode size) {i : Nat} (hi : i < n)
    (hfinishing : (s.lanes i).finishing ≠ []) :
    mode.forkJoin = true ∨ 1 ≤ (s.lanes i).fifo.writeSemaphore.count.toNat := by
  have hlane := h.lanes i hi
  have hresult := hlane.hasResult (.inl hfinishing)
  rcases hfits.callers with ⟨hfork, -⟩ | hcallers
  · exact .inl hfork
  · right
    have hwrite := hlane.writeSemaphore hresult
    have hids := congrArg List.length hlane.ids
    have hroom := h.room hresult i hi
    have hinFlight := h.inFlight
    have hserved := length_idsOn_le s.served i
    have hwaiting := length_idsOn_le s.waiting i
    have hpos := List.length_pos_iff.mpr hfinishing
    simp only [List.length_append, List.length_map] at hids
    omega

theorem Inv.notEmpty (h : Inv mode n s) {i : Nat} (hi : i < n)
    (hcollecting : (s.lanes i).collecting ≠ []) :
    1 ≤ (s.lanes i).fifo.readSemaphore.count.toNat := by
  have hlane := h.lanes i hi
  obtain ⟨k, -, hk⟩ := hlane.count
  have hread := hlane.readSemaphore (hlane.hasResult (.inr (.inl hcollecting))) hk
  have hpos := List.length_pos_iff.mpr hcollecting
  omega

theorem Inv.results (h : Inv mode n s) {i : Nat} (hi : i < n) :
    (s.lanes i).results <+: (s.lanes i).produced := by
  have hlane := h.lanes i hi
  cases hresult : mode.hasResult with
  | false =>
    rw [(hlane.idle hresult).2.2.2]
    exact List.nil_prefix
  | true =>
    obtain ⟨k, -, hk⟩ := hlane.count
    refine prefix_of_maps ?_ ?_
    · have hpassed : (s.lanes i).results.map Prod.fst <+:
          (s.lanes i).produced.map Prod.fst ++ (s.lanes i).running := by
        rw [← hlane.ids, hlane.passed hresult, List.append_assoc, List.append_assoc]
        exact List.prefix_append _ _
      refine List.prefix_of_prefix_length_le hpassed (List.prefix_append _ _) ?_
      have := congrArg List.length (hlane.passed hresult)
      simp only [List.length_append, List.length_map] at this ⊢
      omega
    · rw [hlane.values hresult]
      exact (hlane.results.trans hlane.fifo.isQueue.dequeued).trans (List.prefix_append _ _)

theorem Inv.once (h : Inv mode n s) {i : Nat} (hi : i < n) :
    ((s.lanes i).produced.map Prod.fst).Nodup := by
  have hordered := h.ordered i hi
  rw [(h.lanes i hi).ids] at hordered
  exact (hordered.imp fun hlt => Nat.ne_of_lt hlt).sublist (List.sublist_append_left _ _)

/-- The counter of a lane, and what it counts. -/
theorem Inv.counters (h : Inv mode n s) {i : Nat} (hi : i < n) :
    (s.lanes i).passed.length ≤ (s.lanes i).completed.length ∧
      (s.lanes i).completeCount.StandsAt
        ((s.lanes i).completed.length - (s.lanes i).passed.length) := by
  obtain ⟨k, hk, hcount⟩ := (h.lanes i hi).count
  have hlength : (s.lanes i).completed.length = k + (s.lanes i).passed.length := by
    rw [Lane.completed, List.length_take, List.length_map]
    omega
  rw [hlength, Nat.add_sub_cancel]
  exact ⟨by omega, hk⟩

theorem Inv.completed (h : Inv mode n s) {call : Call} (hcall : call ∈ s.served) {i : Nat}
    (hi : i < n) (hmask : call.mask i = true) : call.id ∈ (s.lanes i).completed := by
  have hpassed : call.id ∈ (s.lanes i).passed := by
    refine (h.served i hi).subset ?_
    rw [idsOn, List.mem_map]
    exact ⟨call, List.mem_filter.mpr ⟨hcall, hmask⟩, rfl⟩
  -- The calls behind the wait are the first ones, and so are those that are completed.
  have hpre : (s.lanes i).passed <+: (s.lanes i).completed := by
    have hleft : (s.lanes i).passed <+:
        (s.lanes i).produced.map Prod.fst ++ (s.lanes i).running := by
      rw [← (h.lanes i hi).ids]
      exact List.prefix_append _ _
    have hright : (s.lanes i).completed <+:
        (s.lanes i).produced.map Prod.fst ++ (s.lanes i).running :=
      (List.take_prefix _ _).trans (List.prefix_append _ _)
    exact List.prefix_of_prefix_length_le hleft hright (h.counters hi).1
  exact hpre.subset hpassed

theorem Inv.safe (h : Inv mode n s) (hfits : Fits mode size) : Safe mode n s where
  results _ hi := h.results hi
  once _ hi := h.once hi
  completed _ hcall _ hi hmask := h.completed hcall hi hmask
  counters _ hi := h.counters hi
  notFull _ hi hfinishing := h.notFull hfits hi hfinishing
  notEmpty _ hi hcollecting := h.notEmpty hi hcollecting

/-! ### The steps -/

/-- A step of one lane. -/
theorem Inv.onLane (h : Inv mode n s) (lane : Nat) (f : Lane T size → Lane T size)
    (hlane : (f (s.lanes lane)).Inv mode (idsOn s.waiting lane))
    (hpassed : (f (s.lanes lane)).passed = (s.lanes lane).passed)
    (hresults : (s.lanes lane).results.length ≤ (f (s.lanes lane)).results.length) :
    Inv mode n (s.onLane lane f) := by
  have hcases : ∀ (P : Lane T size → Prop) i, (i = lane → P (f (s.lanes lane))) →
      (i ≠ lane → P (s.lanes i)) → P ((s.onLane lane f).lanes i) := by
    intro P i heq hne
    simp only [Parallel.onLane]
    split
    · rename_i hi
      subst hi
      exact heq rfl
    · rename_i hi
      exact hne hi
  have hsame : ∀ i, ((s.onLane lane f).lanes i).passed = (s.lanes i).passed := by
    intro i
    refine hcases (fun l => l.passed = (s.lanes i).passed) i ?_ fun _ => rfl
    rintro rfl
    exact hpassed
  refine ⟨fun i hi => ?_, fun i hi => ?_, fun i hi => ?_, fun i hi => ?_, fun hresult i hi => ?_,
    h.inFlight⟩
  · refine hcases (fun l => l.Inv mode (idsOn s.waiting i)) i ?_ fun _ => h.lanes i hi
    rintro rfl
    exact hlane
  · rw [hsame]
    exact h.ordered i hi
  · rw [hsame]
    exact h.bound i hi
  · rw [hsame]
    exact h.served i hi
  · rw [hsame]
    have hroom := h.room hresult i hi
    refine hcases (fun l => (s.lanes i).passed.length ≤ l.results.length + _) i ?_ fun _ => hroom
    rintro rfl
    exact hroom.trans (Nat.add_le_add_right hresults _)

theorem Inv.call (h : Inv mode n s) (mask : Nat → Bool)
    (he : Enabled mode n s (.call mask)) : Inv mode n (next mode n s (.call mask)) := by
  have hinFlight : s.served.length + s.waiting.length < mode.maxCallers := he
  have hwaiting : ∀ i, idsOn (s.waiting ++ [⟨s.calls, mask⟩]) i =
      idsOn s.waiting i ++ if mask i then [s.calls] else [] := by
    intro i
    rw [idsOn_append, idsOn_cons]
    simp [idsOn]
  have hpassed : ∀ i, (if mask i then (s.lanes i).launch s.calls else s.lanes i).passed =
      (s.lanes i).passed := by
    intro i
    split <;> rfl
  have hresults : ∀ i, (if mask i then (s.lanes i).launch s.calls else s.lanes i).results =
      (s.lanes i).results := by
    intro i
    split <;> rfl
  refine ⟨fun i hi => ?_, fun i hi => ?_, fun i hi => ?_, fun i hi => ?_, fun hresult i hi => ?_,
    ?_⟩
  · simp only [next, hwaiting]
    split
    · exact (h.lanes i hi).launch s.calls
    · simpa using h.lanes i hi
  · simp only [next, hwaiting, hpassed, ← List.append_assoc]
    rw [List.pairwise_append]
    refine ⟨h.ordered i hi, by split <;> simp, fun a ha b hb => ?_⟩
    split at hb
    · rw [List.mem_singleton.mp hb]
      exact h.bound i hi a ha
    · exact absurd hb List.not_mem_nil
  · simp only [next, hwaiting, hpassed, ← List.append_assoc]
    intro c hc
    rcases List.mem_append.mp hc with hold | hnew
    · exact Nat.lt_succ_of_lt (h.bound i hi c hold)
    · split at hnew
      · rw [List.mem_singleton.mp hnew]
        exact Nat.lt_succ_self _
      · exact absurd hnew List.not_mem_nil
  · simp only [next, hpassed]
    exact h.served i hi
  · simp only [next, hpassed, hresults]
    exact h.room hresult i hi
  · simp only [next, List.length_append, List.length_singleton]
    omega

/-- A call passes the wait when all of its lanes are ready. -/
theorem Inv.test (h : Inv mode n s) : Inv mode n (next mode n s .test) := by
  cases hwaiting : s.waiting with
  | nil =>
    simp only [next, hwaiting]
    exact h
  | cons call waiting =>
    simp only [next, hwaiting]
    split
    · rename_i hready
      have hlane : ∀ i < n, ((s.lanes i).serve mode call.id (call.mask i)).Inv mode
          (idsOn waiting i) := by
        intro i hi
        have hinv := h.lanes i hi
        rw [hwaiting, idsOn_cons] at hinv
        have hi' := List.all_eq_true.mp hready i (List.mem_range.mpr hi)
        cases hmask : call.mask i with
        | true =>
          rw [hmask] at hinv hi'
          exact hinv.serve_of_masked rfl hi'
        | false =>
          rw [hmask] at hinv
          exact hinv.serve_of_not_masked call.id
      have hids : ∀ i, ((s.lanes i).serve mode call.id (call.mask i)).passed ++ idsOn waiting i =
          (s.lanes i).passed ++ idsOn s.waiting i := by
        intro i
        rw [Lane.serve_passed, hwaiting, idsOn_cons, List.append_assoc]
      have hserved : ∀ i, idsOn (s.served ++ [call]) i =
          idsOn s.served i ++ if call.mask i then [call.id] else [] := by
        intro i
        rw [idsOn_append, idsOn_cons]
        simp [idsOn]
      refine ⟨hlane, fun i hi => ?_, fun i hi => ?_, fun i hi => ?_, fun hresult i hi => ?_, ?_⟩
      · rw [hids]
        exact h.ordered i hi
      · rw [hids]
        exact h.bound i hi
      · simp only [hserved, Lane.serve_passed]
        obtain ⟨before, hbefore⟩ := h.served i hi
        exact ⟨before, by rw [← List.append_assoc, hbefore]⟩
      · simp only [hserved, Lane.serve_passed, Lane.serve_results, List.length_append]
        have := h.room hresult i hi
        omega
      · have := h.inFlight
        rw [hwaiting, List.length_cons] at this
        simp only [List.length_append, List.length_singleton]
        omega
    · exact h

/-- A call returns with its results. -/
theorem Inv.callReturns (h : Inv mode n s) (he : Enabled mode n s .callReturns) :
    Inv mode n (next mode n s .callReturns) := by
  obtain ⟨call, rest, hserved⟩ : ∃ call rest, s.served = call :: rest := by
    cases hs : s.served with
    | nil => simp [Enabled, hs] at he
    | cons call rest => exact ⟨call, rest, rfl⟩
  have hcall : mode.hasResult = true → ∀ i < n, call.mask i = true →
      call.id ∈ (s.lanes i).results.map Prod.fst := by
    intro hresult i hi hmask
    have hall : s.hasAllResults n call = true := by simpa [Enabled, hserved, hresult] using he
    have hlane := List.all_eq_true.mp hall i (List.mem_range.mpr hi)
    simpa [hmask] using hlane
  refine ⟨h.lanes, h.ordered, h.bound, fun i hi => ?_, fun hresult i hi => ?_, ?_⟩
  · simp only [next, hserved, List.tail_cons]
    have hsuffix := h.served i hi
    rw [hserved, idsOn_cons] at hsuffix
    exact (List.suffix_append _ _).trans hsuffix
  · simp only [next, hserved, List.tail_cons]
    have hroom := h.room hresult i hi
    have hsuffix := h.served i hi
    rw [hserved, idsOn_cons] at hroom hsuffix
    cases hmask : call.mask i with
    | false =>
      simp only [hmask, if_false, Bool.false_eq_true, List.nil_append] at hroom
      exact hroom
    | true =>
      simp only [hmask, if_true, List.cons_append, List.nil_append, List.length_cons]
        at hroom hsuffix
      obtain ⟨before, hbefore⟩ := hsuffix
      -- The result of the call is not one of those of the calls that returned before it.
      by_contra hlt
      have hlength := congrArg List.length hbefore
      simp only [List.length_append, List.length_cons] at hlength
      have hpassed := (h.lanes i hi).passed hresult
      have hpre : (s.lanes i).results.map Prod.fst <+: before := by
        have hleft : (s.lanes i).results.map Prod.fst <+: (s.lanes i).passed := by
          rw [hpassed, List.append_assoc]
          exact List.prefix_append _ _
        have hright : before <+: (s.lanes i).passed := by
          rw [← hbefore]
          exact List.prefix_append _ _
        refine List.prefix_of_prefix_length_le hleft hright ?_
        rw [List.length_map]
        omega
      have hmem := hpre.subset (hcall hresult i hi hmask)
      have hordered := (List.pairwise_append.mp (h.ordered i hi)).1
      rw [← hbefore, List.pairwise_append] at hordered
      exact absurd (hordered.2.2 call.id hmem call.id List.mem_cons_self) (Nat.lt_irrefl _)
  · have := h.inFlight
    rw [hserved, List.length_cons] at this
    simp only [next, hserved, List.tail_cons]
    omega

theorem Inv.step (hfits : Fits mode size) (h : Inv mode n s) (e : Event T)
    (he : Enabled mode n s e) : Inv mode n (next mode n s e) := by
  have hwraps := hfits.wraps
  cases e with
  | call mask => exact h.call mask he
  | test => exact h.test
  | callReturns => exact h.callReturns he
  | bodyReturns lane value =>
    exact h.onLane lane (·.bodyReturns mode value)
      ((h.lanes lane he.1).bodyReturns he.2 value) (by simp) (by simp)
  | enqueueWait lane =>
    exact h.onLane lane (·.enqueueWait mode)
      ((h.lanes lane he.1).enqueueWait hwraps he.2 (h.notFull hfits he.1 he.2)) (by simp) (by simp)
  | enqueueClaim lane =>
    exact h.onLane lane (·.fifoStep mode .enqueueClaim)
      ((h.lanes lane he.1).enqueueClaim hwraps he.2) rfl le_rfl
  | enqueueStore lane =>
    exact h.onLane lane (·.fifoStep mode .enqueueStore)
      ((h.lanes lane he.1).enqueueStore hwraps he.2) rfl le_rfl
  | enqueuePost lane =>
    exact h.onLane lane (·.enqueuePost mode)
      ((h.lanes lane he.1).enqueuePost hwraps he.2) rfl le_rfl
  | increment lane =>
    refine h.onLane lane Lane.increment ((h.lanes lane he.1).increment he.2 ?_) rfl le_rfl
    refine hfits.callers.imp And.right fun hcallers => ?_
    have hlength := length_idsOn_le s.waiting lane
    have hinFlight := h.inFlight
    omega
  | dequeueWait lane =>
    exact h.onLane lane (·.dequeueWait mode)
      ((h.lanes lane he.1).dequeueWait hwraps he.2 (h.notEmpty he.1 he.2)) (by simp) (by simp)
  | dequeueClaim lane =>
    exact h.onLane lane (·.fifoStep mode .dequeueClaim)
      ((h.lanes lane he.1).dequeueClaim hwraps he.2) rfl le_rfl
  | dequeueLoad lane unknown =>
    exact h.onLane lane (·.fifoStep mode (.dequeueLoad unknown))
      ((h.lanes lane he.1).dequeueLoad hwraps unknown he.2) rfl le_rfl
  | dequeuePost lane =>
    obtain ⟨hinv, hlength⟩ := (h.lanes lane he.1).dequeuePost hwraps he.2
    exact h.onLane lane (·.dequeuePost mode) hinv (by simp) (by omega)

theorem invariant (hfits : Fits mode size) (dataMem : Nat → Memory T size) :
    (system mode n dataMem).Invariant (Inv mode n) where
  start := by
    have hfifo : ∀ i, (({ ring := { dataMem := dataMem i } } : Fifo T size)).Inv := by
      intro i
      refine ⟨Ring.Inv.start (dataMem i), rfl, ?_, ?_⟩
      · simp [Semaphore.toNat_count_initial]
      · simp [Semaphore.toNat_count_initial, Fifo.inTransit]
    refine ⟨fun i _ => ?_, ?_, ?_, ?_, ?_, ?_⟩
    · refine ⟨hfifo i, rfl, ⟨0, Counter.standsAt_reset (Nat.zero_le _), rfl⟩, fun _ => rfl,
        fun _ => rfl, rfl, List.nil_prefix, rfl, fun _ => ⟨rfl, rfl, rfl, rfl⟩⟩
    · exact fun i _ => List.Pairwise.nil
    · exact fun i _ c hc => absurd hc List.not_mem_nil
    · exact fun i _ => List.suffix_rfl
    · exact fun _ i _ => Nat.zero_le _
    · exact Nat.zero_le _
  step _ e h he := h.step hfits e he

end Parallel

end Kanagawa.Library
