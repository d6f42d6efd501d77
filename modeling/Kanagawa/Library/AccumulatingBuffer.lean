/-
  Kanagawa.Library.AccumulatingBuffer

  Accumulating buffers (`data/buffer/accumulating.k`).

  A buffer collects elements and gives them back in flits of `Size` elements.
  The element counts, the last flit, which fills up element by element, and the
  full flits before it are kept in three places.  Each of these memories is used
  in one atomic step of a call, and calls pass the steps in order, so that calls
  have the effect they would have one after the other.

  The flit buffer may be read beyond its end: it has no room for the last flit of
  a buffer, and its value is then not used.  What such a read gives is a
  parameter, and the addresses that are read are kept.
-/
import Kanagawa.Arith.Literal
import Kanagawa.Lib.Except
import Kanagawa.Library.UnalignedMemory

namespace Kanagawa.Library

open Runs Lib.Except

/-- `count_t<Size> value_count; T[Size] values; bool empty` -/
structure AccumulatingOutput (T : Type) (size : Nat) where
  valueCount : Nat
  values : Vector T size
  empty : Bool

/-- A call of `output_callback`: the index of the flit, the number of flits and the flit. -/
structure FlitCallback (T : Type) (size : Nat) where
  index : Nat
  count : Nat
  data : Vector T size
  valueCount : Nat

/-- The arguments of `enqueue` and of `enqueue_with_callback`. -/
structure AccumulatingCall (T : Type) (inputSize : Nat) where
  bufferIndex : Nat
  values : Vector T inputSize
  valueCount : Nat
  flush : Bool

/-- `FlitBufferDepth`: the last flit of each buffer is not stored. -/
def flitBufferDepth (bufferCount flitCount : Nat) : Nat :=
  if flitCount = 1 then 1 else (flitCount - 1) * bufferCount

/-- `multi_accumulating_buffer`, with the memories of its functions. -/
structure MultiAccumulatingBuffer (T : Type) (size bufferCount flitCount : Nat) where
  /-- `_context_value_count` -/
  contextValueCount : Memory Nat bufferCount
  /-- `_element_count` -/
  elementCount : Memory Nat bufferCount
  /-- `context_values` -/
  contextValues : Memory (Vector T size) bufferCount
  /-- `_flit_buffer` -/
  flitBuffer : Memory (Vector T size) (flitBufferDepth bufferCount flitCount)

namespace MultiAccumulatingBuffer

variable {T : Type} [Inhabited T] {size bufferCount flitCount inputSize : Nat}

/-! ## enqueue -/

/-- The number of elements that `enqueue` returns, and the number that stay. -/
def newCounts (size totalValueCount : Nat) (flush : Bool) : Except Failure (Nat × Nat) :=
  -- Buffer fills: the remaining values stay
  if totalValueCount ≥ size then
    return (size, (totalValueCount - size) % 2 ^ indexWidth size)
  -- Flush, but less than a full buffer
  else if flush then do
    assert (totalValueCount < size)
    return (totalValueCount, 0)
  else do
    assert (totalValueCount < size)
    return (0, totalValueCount)

/-- The new values, padded with zeros and aligned with the values that are there. -/
def shiftedValues (size : Nat) (values : Vector T inputSize) (contextCount : Nat) : Nat → T :=
  rotateArrayLeft size (indexWidth size) (fun i => element values i) contextCount

/-- `result.values`: the new values behind those that are there. -/
def resultValues (snappedContextValues : Vector T size) (contextMask : Nat → Bool)
    (shifted : Nat → T) : Vector T size :=
  Vector.ofFn fun i => if contextMask i then element snappedContextValues i else shifted i

/-- `new_context_values`: a full buffer is overwritten with the values that did not fit. -/
def newContextValues (snappedContextValues : Vector T size) (contextMask : Nat → Bool)
    (bufferFull : Bool) (shifted : Nat → T) : Vector T size :=
  Vector.ofFn fun i =>
    if contextMask i && !bufferFull then element snappedContextValues i else shifted i

/-- `enqueue` -/
def enqueue (s : MultiAccumulatingBuffer T size bufferCount flitCount)
    (call : AccumulatingCall T inputSize) :
    Except Failure
      (AccumulatingOutput T size × MultiAccumulatingBuffer T size bufferCount flitCount) := do
  assert (call.bufferIndex < bufferCount)
  let snappedContextValueCount := s.contextValueCount.read call.bufferIndex 0
  let totalValueCount := snappedContextValueCount + call.valueCount
  let bufferFull := decide (totalValueCount ≥ size)
  let counts ← newCounts size totalValueCount call.flush
  -- The assertions of `rotate_array_left` and of `mask_less_than`
  assert (snappedContextValueCount < size)
  let shifted := shiftedValues size call.values snappedContextValueCount
  let contextMask := maskLessThan size snappedContextValueCount
  let snappedContextValues := s.contextValues.read call.bufferIndex default
  return (⟨counts.1, resultValues snappedContextValues contextMask shifted, counts.2 == 0⟩,
    { s with
      contextValueCount := s.contextValueCount.write call.bufferIndex counts.2
      contextValues := s.contextValues.write call.bufferIndex
        (newContextValues snappedContextValues contextMask bufferFull shifted) })

/-! ## enqueue_with_callback -/

/-- What the first part of a call finds out: `num_elements_to_flush`, `write_flit_idx`,
    `thread_count` and `has_double_enqueue`. -/
structure Plan where
  numElementsToFlush : Nat
  writeFlitIdx : Nat
  threadCount : Nat
  hasDoubleEnqueue : Bool

/-- `MaxThreadCount` -/
def maxThreadCount (size flitCount inputSize : Nat) : Nat :=
  (flitCount * size + inputSize + size - 1) / size

/-- The elements to flush and those that stay, of the atomic block that counts elements. -/
def countElements (size flitCount inputSize incrementedElementCount : Nat) (flush : Bool) :
    Except Failure (Nat × Nat) := do
  let multiFlitSize := flitCount * size
  assert (incrementedElementCount < 2 ^ countWidth (multiFlitSize + inputSize))
  if flush then do
    -- The caller must ensure that the elements fit
    assert (incrementedElementCount ≤ multiFlitSize)
    return (incrementedElementCount, 0)
  else if incrementedElementCount ≥ multiFlitSize then do
    let after := (incrementedElementCount - multiFlitSize) % 2 ^ countWidth multiFlitSize
    assert (after ≤ size)
    return (multiFlitSize, after)
  else do
    assert (incrementedElementCount < 2 ^ countWidth multiFlitSize)
    return (0, incrementedElementCount)

/-- The part of a call before its threads. -/
def plan (s : MultiAccumulatingBuffer T size bufferCount flitCount)
    (call : AccumulatingCall T inputSize) :
    Except Failure (Plan × MultiAccumulatingBuffer T size bufferCount flitCount) := do
  assert (call.valueCount ≤ inputSize)
  let elementCountBefore := s.elementCount.read call.bufferIndex 0
  let counts ← countElements size flitCount inputSize (elementCountBefore + call.valueCount)
    call.flush
  let s := { s with elementCount := s.elementCount.write call.bufferIndex counts.2 }
  let numElementsToFlush := counts.1
  let writeFlitIdx := elementCountBefore / size
  assert (writeFlitIdx < 2 ^ indexWidth flitCount)
  assert (writeFlitIdx < flitCount)
  let threadCount :=
    if numElementsToFlush = 0 then 1 else (numElementsToFlush + size - 1) / size
  assert (threadCount < 2 ^ countWidth (maxThreadCount size flitCount inputSize))
  assert (threadCount ≤ maxThreadCount size flitCount inputSize)
  -- The cast keeps as many bits of the count as an `index_t<Size>` has
  let elementsInEnqueueBufferBefore := elementCountBefore % 2 ^ indexWidth size
  let hasDoubleEnqueue :=
    call.flush && decide (elementsInEnqueueBufferBefore + call.valueCount > size)
  return (⟨numElementsToFlush, writeFlitIdx, threadCount, hasDoubleEnqueue⟩, s)

/-- What the threads of a call leave: the buffer, the calls of the callback in order, and the
    addresses of the flit buffer that were read. -/
structure Outcome (T : Type) (size bufferCount flitCount : Nat) where
  buffer : MultiAccumulatingBuffer T size bufferCount flitCount
  callbacks : List (FlitCallback T size) := []
  flitReads : List Nat := []

/-- The `enqueue` of a thread, which the last one or two threads make. -/
def enqueueOfThread (s : MultiAccumulatingBuffer T size bufferCount flitCount)
    (call : AccumulatingCall T inputSize) (p : Plan) (tid : Nat) :
    Except Failure
      (Option (AccumulatingOutput T size) ×
        MultiAccumulatingBuffer T size bufferCount flitCount) := do
  -- When there are two enqueues, there must be two threads
  assert (!p.hasDoubleEnqueue || decide (p.threadCount ≥ 2))
  let firstEnqueueThread := p.threadCount - (if p.hasDoubleEnqueue then 2 else 1)
  assert (firstEnqueueThread < 2 ^ indexWidth (maxThreadCount size flitCount inputSize))
  if tid ≥ firstEnqueueThread then do
    let enqueued :=
      if p.hasDoubleEnqueue then
        if tid = firstEnqueueThread then { call with flush := false }
        else { call with valueCount := 0, flush := true }
      else call
    let result ← s.enqueue enqueued
    assert (!p.hasDoubleEnqueue || decide (result.1.valueCount > 0))
    return (some result.1, result.2)
  else return (none, s)

/-- The result of the `enqueue`, if it has values. -/
def flitOf (enqueueResult : Option (AccumulatingOutput T size)) :
    Option (AccumulatingOutput T size) :=
  enqueueResult.filter fun result => decide (result.valueCount > 0)

/-- The access to the flit buffer: the address of the flit, the flit that was there, and the
    buffer with the new flit, unless that is the last one. -/
def accessFlit (s : MultiAccumulatingBuffer T size bufferCount flitCount)
    (unknown : Vector T size) (bufferIndex : Nat) (p : Plan) (tid : Nat)
    (flit : Option (AccumulatingOutput T size)) :
    Except Failure
      (Nat × Vector T size × MultiAccumulatingBuffer T size bufferCount flitCount) := do
  assert (p.numElementsToFlush ≠ 0 || decide (tid = 0))
  let memAddr := bufferIndex * (flitCount - 1) + tid +
    (if p.numElementsToFlush = 0 then p.writeFlitIdx else 0)
  let isUnstoredFlit := decide (tid = flitCount - 1)
  let prevFlit := s.flitBuffer.read memAddr unknown
  match flit, isUnstoredFlit with
  | some result, false => do
      assert (memAddr < flitBufferDepth bufferCount flitCount)
      return (memAddr, prevFlit, { s with flitBuffer := s.flitBuffer.write memAddr result.values })
  | _, _ => return (memAddr, prevFlit, s)

/-- The flit that the `enqueue` gave, or else the one of the flit buffer, which must be in
    bounds. -/
def chooseFlit (bufferCount flitCount memAddr : Nat) (prevFlit : Vector T size) :
    Option (AccumulatingOutput T size) → Except Failure (Vector T size × Nat)
  | some result => .ok (result.values, result.valueCount)
  | none => do
      assert (memAddr < flitBufferDepth bufferCount flitCount)
      return (prevFlit, size)

/-- The call of the callback of a thread. -/
def outputFlit (bufferCount flitCount : Nat) (p : Plan) (tid memAddr : Nat)
    (prevFlit : Vector T size) (flit : Option (AccumulatingOutput T size)) :
    Except Failure (FlitCallback T size) := do
  let output ← chooseFlit bufferCount flitCount memAddr prevFlit flit
  assert (output.2 > 0)
  assert (tid < 2 ^ indexWidth flitCount)
  assert (p.threadCount < 2 ^ countWidth flitCount)
  return ⟨tid, p.threadCount, output.1, output.2⟩

/-- One thread of `enqueue_with_callback`. -/
def runThread (unknown : Vector T size) (call : AccumulatingCall T inputSize) (p : Plan)
    (o : Outcome T size bufferCount flitCount) (tid : Nat) :
    Except Failure (Outcome T size bufferCount flitCount) := do
  let (enqueueResult, s) ← enqueueOfThread o.buffer call p tid
  let flit := flitOf enqueueResult
  let (memAddr, prevFlit, s) ← accessFlit s unknown call.bufferIndex p tid flit
  let o := { o with buffer := s, flitReads := o.flitReads ++ [memAddr] }
  if p.numElementsToFlush > 0 then do
    let callback ← outputFlit bufferCount flitCount p tid memAddr prevFlit flit
    return { o with callbacks := o.callbacks ++ [callback] }
  else return o

/-- `enqueue_with_callback` -/
def enqueueWithCallback (unknown : Vector T size)
    (s : MultiAccumulatingBuffer T size bufferCount flitCount)
    (call : AccumulatingCall T inputSize) :
    Except Failure (Outcome T size bufferCount flitCount) := do
  let (p, s) ← s.plan call
  (List.range p.threadCount).foldlM (runThread unknown call p) { buffer := s }

/-! ## What a call of enqueue does -/

/-- The first entries of an array are the elements of a list. -/
def StartsWith (v : Vector T size) (xs : List T) : Prop := ∀ j < xs.length, v[j]? = xs[j]?

/-- The context of a buffer holds the elements of a list. -/
structure ContextHolds (s : MultiAccumulatingBuffer T size bufferCount flitCount) (b : Nat)
    (xs : List T) : Prop where
  count : s.contextValueCount.read b 0 = xs.length
  lt : xs.length < size
  values : StartsWith (s.contextValues.read b default) xs

/-- What `enqueue` makes of the elements that are there and the new ones: those it returns and
    those that stay. -/
def enqueued (size : Nat) (xs : List T) (flush : Bool) : List T × List T :=
  if size ≤ xs.length then (xs.take size, xs.drop size)
  else if flush then (xs, [])
  else ([], xs)

omit [Inhabited T] in
theorem enqueued_append (size : Nat) (xs : List T) (flush : Bool) :
    (enqueued size xs flush).1 ++ (enqueued size xs flush).2 = xs := by
  unfold enqueued
  split
  · exact List.take_append_drop size xs
  · split
    · exact List.append_nil xs
    · exact List.nil_append xs

/-- The elements that a call appends. -/
def newElements (call : AccumulatingCall T inputSize) : List T :=
  call.values.toList.take call.valueCount

omit [Inhabited T] in
theorem length_newElements {call : AccumulatingCall T inputSize}
    (hn : call.valueCount ≤ inputSize) :
    (newElements call).length = call.valueCount := by
  rw [newElements, List.length_take, Vector.length_toList, Nat.min_eq_left hn]

theorem newElements_getElem? {call : AccumulatingCall T inputSize}
    {i : Nat} (hi : i < call.valueCount) (hn : call.valueCount ≤ inputSize) :
    (newElements call)[i]? = some (element call.values i) := by
  have hlt : i < inputSize := by omega
  rw [newElements, List.getElem?_take_of_lt hi, Vector.getElem?_toList, element]
  simp [hlt]

omit [Inhabited T] in
theorem newCounts_eq (size : Nat) (xs : List T) (hle : xs.length < 2 * size) (flush : Bool) :
    newCounts size xs.length flush =
      .ok ((enqueued size xs flush).1.length, (enqueued size xs flush).2.length) := by
  unfold newCounts enqueued
  by_cases hfull : size ≤ xs.length
  · rw [if_pos hfull, if_pos hfull, mod_two_pow_indexWidth (by omega), List.length_take,
      List.length_drop, Nat.min_eq_left hfull]
    rfl
  · have hlt : decide (xs.length < size) = true := decide_eq_true (by omega)
    rw [if_neg hfull, if_neg hfull, assert_of_true hlt]
    cases flush <;> rfl

/-- The new values stand behind the old ones, and wrap around where they do not fit. -/
theorem shiftedValues_eq {call : AccumulatingCall T inputSize} {xs : List T}
    (hxs : xs.length < size) (hin : inputSize ≤ size) (hn : call.valueCount ≤ inputSize) {i : Nat}
    (hi : i < (xs ++ newElements call).length) (hge : xs.length ≤ i) :
    some (shiftedValues size call.values xs.length (i % size)) = (xs ++ newElements call)[i]? := by
  rw [List.length_append, length_newElements hn] at hi
  have hk : i - xs.length < size := by omega
  have hrotate := rotateArrayLeft_apply hk (Nat.lt_of_lt_of_le hxs (le_two_pow_indexWidth size))
    (fun i => element call.values i)
  rw [Nat.sub_add_cancel hge] at hrotate
  rw [shiftedValues, hrotate, List.getElem?_append_right hge, newElements_getElem? (by omega) hn]

/-- `enqueue` returns the elements of `enqueued`, and the others stay. -/
theorem enqueue_eq {s : MultiAccumulatingBuffer T size bufferCount flitCount}
    {call : AccumulatingCall T inputSize} {xs : List T} (hin : inputSize ≤ size)
    (hb : call.bufferIndex < bufferCount) (hn : call.valueCount ≤ inputSize)
    (h : s.ContextHolds call.bufferIndex xs) :
    ∃ out s', s.enqueue call = .ok (out, s') ∧
      out.valueCount = (enqueued size (xs ++ newElements call) call.flush).1.length ∧
      StartsWith out.values (enqueued size (xs ++ newElements call) call.flush).1 ∧
      s'.ContextHolds call.bufferIndex (enqueued size (xs ++ newElements call) call.flush).2 ∧
      (∀ b ys, b ≠ call.bufferIndex → s.ContextHolds b ys → s'.ContextHolds b ys) ∧
      s'.elementCount = s.elementCount ∧ s'.flitBuffer = s.flitBuffer := by
  have hlen : (xs ++ newElements call).length = xs.length + call.valueCount := by
    rw [List.length_append, length_newElements hn]
  have hxs := h.lt
  have hcounts := newCounts_eq size (xs ++ newElements call) (by omega) call.flush
  rw [hlen] at hcounts
  -- The values beyond the context are the shifted ones
  have hshifted : ∀ i, i < (xs ++ newElements call).length → xs.length ≤ i →
      some (shiftedValues size call.values xs.length (i % size)) = (xs ++ newElements call)[i]? :=
    fun i => shiftedValues_eq h.lt hin hn
  have hold : ∀ j, j < xs.length →
      some (element (s.contextValues.read call.bufferIndex default) j) =
        (xs ++ newElements call)[j]? := by
    intro j hj
    rw [List.getElem?_append_left hj, ← h.values j hj, element]
    simp [Nat.lt_trans hj hxs]
  let context := s.contextValues.read call.bufferIndex default
  let mask := maskLessThan size xs.length
  let shifted := shiftedValues size call.values xs.length
  have hvalue : ∀ j, j < (xs ++ newElements call).length → (hj : j < size) →
      (if mask j then element context j else shifted j) = (xs ++ newElements call)[j]? := by
    intro j hj hjs
    have hmask : mask j = decide (j < xs.length) := maskLessThan_apply hjs
    rw [hmask]
    by_cases hlt : j < xs.length
    · rw [if_pos (decide_eq_true hlt), ← hold j hlt]
    · rw [if_neg (by simpa using hlt), ← hshifted j hj (by omega), Nat.mod_eq_of_lt hjs]
  have hresult : ∀ j < (xs ++ newElements call).length, j < size →
      (resultValues context mask shifted)[j]? = (xs ++ newElements call)[j]? := by
    intro j hj hjs
    rw [← hvalue j hj hjs, resultValues, Vector.getElem?_ofFn]
    simp [hjs]
  let full := decide (xs.length + call.valueCount ≥ size)
  have hcontext : StartsWith (newContextValues context mask full shifted)
      (enqueued size (xs ++ newElements call) call.flush).2 := by
    intro j hj
    unfold enqueued at hj ⊢
    by_cases hfull : size ≤ (xs ++ newElements call).length
    · have hdecide : full = true := decide_eq_true (by omega)
      rw [if_pos hfull] at hj ⊢
      dsimp only at hj ⊢
      rw [List.length_drop] at hj
      have hjs : j < size := by omega
      have hat := hshifted (size + j) (by omega) (by omega)
      rw [Nat.add_mod_left, Nat.mod_eq_of_lt hjs] at hat
      rw [List.getElem?_drop, ← hat, hdecide, newContextValues, Vector.getElem?_ofFn]
      simp [hjs, shifted]
    · have hdecide : full = false := decide_eq_false (by omega)
      have hsame : newContextValues context mask full shifted =
          resultValues context mask shifted := by
        rw [hdecide, newContextValues, resultValues]
        simp
      rw [if_neg hfull] at hj ⊢
      rw [hsame]
      cases hflush : call.flush with
      | true =>
          rw [hflush] at hj
          exact absurd hj (Nat.not_lt_zero j)
      | false =>
          rw [hflush] at hj
          have hle := hj
          simp only [Bool.false_eq_true, if_false] at hle
          exact hresult j hj (by omega)
  have hvalues : StartsWith (resultValues context mask shifted)
      (enqueued size (xs ++ newElements call) call.flush).1 := by
    intro j hj
    unfold enqueued at hj ⊢
    by_cases hfull : size ≤ (xs ++ newElements call).length
    · rw [if_pos hfull] at hj ⊢
      dsimp only at hj ⊢
      rw [List.length_take] at hj
      rw [List.getElem?_take_of_lt (by omega)]
      exact hresult j (by omega) (by omega)
    · rw [if_neg hfull] at hj ⊢
      cases hflush : call.flush with
      | true =>
          rw [hflush] at hj
          exact hresult j hj (by have := hj; simp only [if_true] at this; omega)
      | false =>
          rw [hflush] at hj
          exact absurd hj (Nat.not_lt_zero j)
  have hok : s.enqueue call = .ok (⟨(enqueued size (xs ++ newElements call) call.flush).1.length,
      resultValues context mask shifted,
      (enqueued size (xs ++ newElements call) call.flush).2.length == 0⟩,
      { s with
        contextValueCount := s.contextValueCount.write call.bufferIndex
          (enqueued size (xs ++ newElements call) call.flush).2.length
        contextValues := s.contextValues.write call.bufferIndex
          (newContextValues context mask full shifted) }) := by
    simp only [enqueue, assert_of_true (decide_eq_true hb), h.count, ok_bind, hcounts,
      assert_of_true (decide_eq_true h.lt), pure_eq_ok]
    rfl
  refine ⟨_, _, hok, rfl, hvalues, ⟨?_, ?_, ?_⟩, fun b ys hne hys => ⟨?_, hys.lt, ?_⟩, rfl, rfl⟩
  · exact s.contextValueCount.read_write_self hb _ _
  · unfold enqueued
    by_cases hfull : size ≤ (xs ++ newElements call).length
    · rw [if_pos hfull]
      show ((xs ++ newElements call).drop size).length < size
      rw [List.length_drop]
      omega
    · rw [if_neg hfull]
      cases call.flush with
      | true => exact Nat.lt_of_le_of_lt (Nat.zero_le _) hxs
      | false => exact Nat.lt_of_not_le hfull
  · show StartsWith ((s.contextValues.write call.bufferIndex _).read call.bufferIndex default) _
    rw [s.contextValues.read_write_self hb]
    exact hcontext
  · show (s.contextValueCount.write call.bufferIndex _).read b 0 = _
    rw [s.contextValueCount.read_write_of_ne (Ne.symm hne)]
    exact hys.count
  · show StartsWith ((s.contextValues.write call.bufferIndex _).read b default) _
    rw [s.contextValues.read_write_of_ne (Ne.symm hne)]
    exact hys.values

/-! ## What a call of enqueue_with_callback does -/

/-- A flit of a list of elements; the last one may be partial. -/
def chunk (size : Nat) (xs : List T) (i : Nat) : List T := (xs.drop (i * size)).take size

/-- What `enqueue_with_callback` makes of the elements that are there and the new ones: those
    it passes to the callback and those that stay. -/
def accumulated (size flitCount : Nat) (xs : List T) (flush : Bool) : List T × List T :=
  if flush then (xs, [])
  else if flitCount * size ≤ xs.length then
    (xs.take (flitCount * size), xs.drop (flitCount * size))
  else ([], xs)

/-- The number of flits of a number of elements. -/
def flitsOf (size n : Nat) : Nat := (n + size - 1) / size

/-- A buffer holds the elements of a list. -/
structure Holds (s : MultiAccumulatingBuffer T size bufferCount flitCount) (b : Nat)
    (held : List T) : Prop where
  elements : s.elementCount.read b 0 = held.length
  lt : held.length < flitCount * size
  context : s.ContextHolds b (held.drop (held.length / size * size))
  stored : ∀ i < held.length / size, ∀ u,
    StartsWith (s.flitBuffer.read (b * (flitCount - 1) + i) u) (chunk size held i)

/-- Other buffers hold what they held. -/
def Frame (b : Nat) (s s' : MultiAccumulatingBuffer T size bufferCount flitCount) : Prop :=
  ∀ b' held, b' ≠ b → s.Holds b' held → s'.Holds b' held

theorem Frame.trans {b : Nat} {s s' s'' : MultiAccumulatingBuffer T size bufferCount flitCount}
    (h : Frame b s s') (h' : Frame b s' s'') : Frame b s s'' :=
  fun b' held hne hheld => h' b' held hne (h b' held hne hheld)

theorem Holds.div_lt {s : MultiAccumulatingBuffer T size bufferCount flitCount} {b : Nat}
    {held : List T} (h : s.Holds b held) (hsize : 0 < size) : held.length / size < flitCount :=
  (Nat.div_lt_iff_lt_mul hsize).mpr h.lt

/-- Flits of different buffers have different addresses. -/
theorem flit_address_ne {m b b' i i' : Nat} (hi : i < m) (hi' : i' < m) (hne : b ≠ b') :
    b * m + i ≠ b' * m + i' := by
  intro heq
  have hdiv := congrArg (· / m) heq
  simp only [Nat.mul_comm b, Nat.mul_comm b', Nat.mul_add_div (Nat.zero_lt_of_lt hi),
    Nat.div_eq_of_lt hi, Nat.div_eq_of_lt hi', Nat.add_zero] at hdiv
  exact hne hdiv

/-- Storing a flit. -/
def storeFlit (s : MultiAccumulatingBuffer T size bufferCount flitCount) (addr : Nat)
    (v : Vector T size) : MultiAccumulatingBuffer T size bufferCount flitCount :=
  { s with flitBuffer := s.flitBuffer.write addr v }

theorem storeFlit_frame (s : MultiAccumulatingBuffer T size bufferCount flitCount)
    (hsize : 0 < size) {b i : Nat} (hi : i < flitCount - 1) (v : Vector T size) :
    Frame b s (s.storeFlit (b * (flitCount - 1) + i) v) := by
  intro b' held hne h
  refine ⟨h.elements, h.lt, ⟨h.context.count, h.context.lt, h.context.values⟩, fun i' hi' u => ?_⟩
  have hlt := h.div_lt hsize
  show StartsWith ((s.flitBuffer.write _ v).read _ u) _
  rw [s.flitBuffer.read_write_of_ne (flit_address_ne hi (by omega) (Ne.symm hne))]
  exact h.stored i' hi' u

/-- A step that only changes the context and the count of one buffer. -/
theorem frame_of_context {b : Nat} {s s' : MultiAccumulatingBuffer T size bufferCount flitCount}
    (hcontext : ∀ b' ys, b' ≠ b → s.ContextHolds b' ys → s'.ContextHolds b' ys)
    (helements : ∀ b', b' ≠ b → s'.elementCount.read b' 0 = s.elementCount.read b' 0)
    (hflits : s'.flitBuffer = s.flitBuffer) : Frame b s s' := by
  intro b' held hne h
  refine ⟨(helements b' hne).trans h.elements, h.lt, hcontext b' _ hne h.context, ?_⟩
  rw [hflits]
  exact h.stored

/-! ### The plan -/

/-- The parameters under which a buffer works: flits of a power of two elements, inputs that fit
    a flit, and more than one element a flit where there is more than one flit. -/
structure Sizes (size flitCount inputSize : Nat) : Prop where
  pow : ∃ k, size = 2 ^ k
  flits_pos : 0 < flitCount
  input_le : inputSize ≤ size
  single : size = 1 → flitCount = 1

namespace Sizes

theorem size_pos (h : Sizes size flitCount inputSize) : 0 < size := by
  obtain ⟨k, rfl⟩ := h.pow
  exact Nat.two_pow_pos k

theorem le_mul (h : Sizes size flitCount inputSize) : size ≤ flitCount * size :=
  Nat.le_mul_of_pos_left size h.flits_pos

/-- The low bits of the count of elements count the elements of the last flit. -/
theorem mod_indexWidth (h : Sizes size flitCount inputSize) {n : Nat} (hn : n < flitCount * size) :
    n % 2 ^ indexWidth size = n % size := by
  obtain ⟨k, hk⟩ := h.pow
  rcases Nat.eq_zero_or_pos k with rfl | hpos
  · have hone : size = 1 := hk
    rw [h.single hone, hone] at hn
    rw [Nat.lt_one_iff.mp hn, Nat.zero_mod, Nat.zero_mod]
  · have hwraps := pointerWraps_two_pow hpos
    rw [← hk] at hwraps
    rw [hwraps]

theorem one_le_maxThreadCount (h : Sizes size flitCount inputSize) :
    1 ≤ maxThreadCount size flitCount inputSize := by
  rw [maxThreadCount, Nat.le_div_iff_mul_le h.size_pos]
  have := h.le_mul
  have := h.size_pos
  omega

theorem flitsOf_le (h : Sizes size flitCount inputSize) {n : Nat} (hn : n ≤ flitCount * size) :
    flitsOf size n ≤ flitCount := by
  rw [flitsOf, Nat.div_le_iff_le_mul_add_pred h.size_pos, Nat.mul_comm]
  have := h.size_pos
  omega

theorem flitsOf_le_max (_ : Sizes size flitCount inputSize) {n : Nat} (hn : n ≤ flitCount * size) :
    flitsOf size n ≤ maxThreadCount size flitCount inputSize :=
  Nat.div_le_div_right (by omega)

end Sizes

omit [Inhabited T] in
theorem countElements_eq (hsizes : Sizes size flitCount inputSize) (xs : List T) (flush : Bool)
    (hlt : xs.length < flitCount * size + inputSize)
    (hfits : flush = true → xs.length ≤ flitCount * size) :
    countElements size flitCount inputSize xs.length flush =
      .ok ((accumulated size flitCount xs flush).1.length,
        (accumulated size flitCount xs flush).2.length) := by
  have hwidth := lt_two_pow_countWidth (flitCount * size + inputSize)
  have hmulti := lt_two_pow_countWidth (flitCount * size)
  have hle := hsizes.le_mul
  have hin := hsizes.input_le
  have hassert : decide (xs.length < 2 ^ countWidth (flitCount * size + inputSize)) = true :=
    decide_eq_true (by omega)
  rw [countElements]
  dsimp only
  rw [assert_of_true hassert, ok_bind]
  unfold accumulated
  cases flush with
  | true =>
      rw [if_pos rfl, if_pos rfl, assert_of_true (decide_eq_true (hfits rfl))]
      rfl
  | false =>
      rw [if_neg Bool.false_ne_true, if_neg Bool.false_ne_true]
      by_cases hfull : flitCount * size ≤ xs.length
      · have hmod : (xs.length - flitCount * size) % 2 ^ countWidth (flitCount * size)
            = xs.length - flitCount * size := Nat.mod_eq_of_lt (by omega)
        have hafter : decide (xs.length - flitCount * size ≤ size) = true :=
          decide_eq_true (by omega)
        rw [if_pos hfull, if_pos hfull, hmod, assert_of_true hafter, List.length_take,
          List.length_drop, Nat.min_eq_left hfull]
        rfl
      · have hassert : decide (xs.length < 2 ^ countWidth (flitCount * size)) = true :=
          decide_eq_true (by omega)
        rw [if_neg hfull, if_neg hfull, assert_of_true hassert]
        rfl

omit [Inhabited T] in
/-- The elements that a call passes to the callback fill the flits at most. -/
theorem length_accumulated_le (size flitCount : Nat) {xs : List T} {flush : Bool}
    (hfits : flush = true → xs.length ≤ flitCount * size) :
    (accumulated size flitCount xs flush).1.length ≤ flitCount * size := by
  unfold accumulated
  cases flush with
  | true => exact hfits rfl
  | false =>
      rw [if_neg Bool.false_ne_true]
      split
      · exact List.length_take_le _ _
      · exact Nat.zero_le _

/-- The plan for a call that finds `held` elements. -/
def planFor (size flitCount : Nat) (held : List T) (call : AccumulatingCall T inputSize) :
    Plan where
  numElementsToFlush := (accumulated size flitCount (held ++ newElements call) call.flush).1.length
  writeFlitIdx := held.length / size
  threadCount :=
    if (accumulated size flitCount (held ++ newElements call) call.flush).1.length = 0 then 1
    else flitsOf size (accumulated size flitCount (held ++ newElements call) call.flush).1.length
  hasDoubleEnqueue := call.flush && decide (held.length % size + call.valueCount > size)

/-- What the caller of `enqueue_with_callback` promises. -/
structure Accepts (bufferCount flitCount size : Nat) (held : List T)
    (call : AccumulatingCall T inputSize) : Prop where
  index_lt : call.bufferIndex < bufferCount
  count_le : call.valueCount ≤ inputSize
  fits : call.flush = true → held.length + call.valueCount ≤ flitCount * size

theorem plan_eq (hsizes : Sizes size flitCount inputSize)
    {s : MultiAccumulatingBuffer T size bufferCount flitCount}
    {call : AccumulatingCall T inputSize} {held : List T} (h : s.Holds call.bufferIndex held)
    (haccepts : Accepts bufferCount flitCount size held call) :
    s.plan call = .ok (planFor size flitCount held call,
      { s with
        elementCount := s.elementCount.write call.bufferIndex
          (accumulated size flitCount (held ++ newElements call) call.flush).2.length }) := by
  have hlen : (held ++ newElements call).length = held.length + call.valueCount := by
    rw [List.length_append, length_newElements haccepts.count_le]
  have hlt := h.lt
  have hle := haccepts.count_le
  have hcount := countElements_eq hsizes (held ++ newElements call) call.flush
    (by omega) (fun hflush => by have := haccepts.fits hflush; omega)
  rw [hlen] at hcount
  have hflush := @length_accumulated_le T size flitCount (held ++ newElements call) call.flush
    (fun hflush => by have := haccepts.fits hflush; omega)
  have hdiv := h.div_lt hsizes.size_pos
  have hthreads : (planFor size flitCount held call).threadCount ≤
      maxThreadCount size flitCount inputSize := by
    rw [planFor]
    dsimp only
    split
    · exact hsizes.one_le_maxThreadCount
    · exact hsizes.flitsOf_le_max hflush
  have hwidth := lt_two_pow_countWidth (maxThreadCount size flitCount inputSize)
  have hindex := le_two_pow_indexWidth flitCount
  have h1 : decide (held.length / size < 2 ^ indexWidth flitCount) = true :=
    decide_eq_true (by omega)
  have h2 : decide ((planFor size flitCount held call).threadCount <
      2 ^ countWidth (maxThreadCount size flitCount inputSize)) = true := decide_eq_true (by omega)
  rw [planFor] at h2 hthreads
  dsimp only [flitsOf] at h2 hthreads
  simp only [plan, assert_of_true (decide_eq_true haccepts.count_le), ok_bind, h.elements, hcount,
    assert_of_true h1, assert_of_true (decide_eq_true hdiv),
    assert_of_true (decide_eq_true hthreads), hsizes.mod_indexWidth hlt, pure_eq_ok]
  erw [assert_of_true h2]
  rfl

/-! ### Threads -/

section Threads

variable (unknown : Vector T size) {call : AccumulatingCall T inputSize} {p : Plan} {tid : Nat}
  {s s' : MultiAccumulatingBuffer T size bufferCount flitCount}

/-- `first_enqueue_thread` -/
def Plan.firstEnqueueThread (p : Plan) : Nat :=
  p.threadCount - (if p.hasDoubleEnqueue then 2 else 1)

/-- What the threads rely on. -/
structure Plan.Runs (p : Plan) (size flitCount inputSize : Nat) : Prop where
  threads_pos : 0 < p.threadCount
  threads_le : p.threadCount ≤ maxThreadCount size flitCount inputSize
  double : p.hasDoubleEnqueue = true → 2 ≤ p.threadCount

theorem Plan.Runs.asserts (h : p.Runs size flitCount inputSize) :
    (!p.hasDoubleEnqueue || decide (p.threadCount ≥ 2)) = true ∧
      decide (p.threadCount - (if p.hasDoubleEnqueue then 2 else 1) <
        2 ^ indexWidth (maxThreadCount size flitCount inputSize)) = true := by
  have hindex := le_two_pow_indexWidth (maxThreadCount size flitCount inputSize)
  have hpos := h.threads_pos
  have hle := h.threads_le
  constructor
  · cases hdouble : p.hasDoubleEnqueue with
    | true => exact decide_eq_true (h.double hdouble)
    | false => rfl
  · refine decide_eq_true ?_
    split <;> omega

/-- A thread before the last ones does not enqueue. -/
theorem enqueueOfThread_none (h : p.Runs size flitCount inputSize)
    (htid : tid < p.firstEnqueueThread) : s.enqueueOfThread call p tid = .ok (none, s) := by
  have htid : ¬ tid ≥ p.threadCount - (if p.hasDoubleEnqueue then 2 else 1) := Nat.not_le.mpr htid
  simp only [enqueueOfThread, assert_of_true h.asserts.1, assert_of_true h.asserts.2, ok_bind,
    if_neg htid]
  rfl

/-- The call that a thread makes. -/
def callOfThread (call : AccumulatingCall T inputSize) (p : Plan) (tid : Nat) :
    AccumulatingCall T inputSize :=
  if p.hasDoubleEnqueue then
    if tid = p.firstEnqueueThread then { call with flush := false }
    else { call with valueCount := 0, flush := true }
  else call

theorem enqueueOfThread_some {out : AccumulatingOutput T size} (h : p.Runs size flitCount inputSize)
    (htid : p.firstEnqueueThread ≤ tid) (hok : s.enqueue (callOfThread call p tid) = .ok (out, s'))
    (hdouble : p.hasDoubleEnqueue = true → 0 < out.valueCount) :
    s.enqueueOfThread call p tid = .ok (some out, s') := by
  have htid : tid ≥ p.threadCount - (if p.hasDoubleEnqueue then 2 else 1) := htid
  have hassert : (!p.hasDoubleEnqueue || decide (out.valueCount > 0)) = true := by
    cases hd : p.hasDoubleEnqueue with
    | true => exact decide_eq_true (hdouble hd)
    | false => rfl
  rw [callOfThread, Plan.firstEnqueueThread] at hok
  simp only [enqueueOfThread, assert_of_true h.asserts.1, assert_of_true h.asserts.2, ok_bind,
    if_pos htid, hok, assert_of_true hassert]
  rfl

/-- The address in the flit buffer of a thread's flit. -/
def flitAddress (flitCount : Nat) (bufferIndex : Nat) (p : Plan) (tid : Nat) : Nat :=
  bufferIndex * (flitCount - 1) + tid + (if p.numElementsToFlush = 0 then p.writeFlitIdx else 0)

/-- The buffer after a thread has stored its flit, unless that is the last one. -/
def storeResult (s : MultiAccumulatingBuffer T size bufferCount flitCount) (addr tid : Nat) :
    Option (AccumulatingOutput T size) → MultiAccumulatingBuffer T size bufferCount flitCount
  | some out => if tid = flitCount - 1 then s else s.storeFlit addr out.values
  | none => s

/-- The flit that a thread passes to the callback. -/
def outputOf (prevFlit : Vector T size) : Option (AccumulatingOutput T size) → Vector T size × Nat
  | some out => (out.values, out.valueCount)
  | none => (prevFlit, size)

omit [Inhabited T] in
theorem accessFlit_eq {addr : Nat} {flit : Option (AccumulatingOutput T size)}
    (haddr : flitAddress flitCount call.bufferIndex p tid = addr)
    (hsingle : p.numElementsToFlush = 0 → tid = 0)
    (hstore : flit.isSome = true → tid ≠ flitCount - 1 →
      addr < flitBufferDepth bufferCount flitCount) :
    s.accessFlit unknown call.bufferIndex p tid flit =
      .ok (addr, s.flitBuffer.read addr unknown, s.storeResult addr tid flit) := by
  have hassert : (p.numElementsToFlush ≠ 0 || decide (tid = 0)) = true := by
    by_cases h : p.numElementsToFlush = 0
    · simp [h, hsingle h]
    · simp [h]
  subst haddr
  simp only [accessFlit, assert_of_true hassert, ok_bind]
  cases flit with
  | none => rfl
  | some out =>
      by_cases hlast : tid = flitCount - 1
      · rw [decide_eq_true hlast]
        simp only [storeResult, if_pos hlast]
        rfl
      · have hlt := hstore rfl hlast
        rw [flitAddress] at hlt
        rw [decide_eq_false hlast]
        simp only [assert_of_true (decide_eq_true hlt), ok_bind, storeResult, if_neg hlast]
        rfl

/-- A thread, once the result of its `enqueue` is known. -/
theorem runThread_eq {o : Outcome T size bufferCount flitCount} {addr : Nat}
    {enqueueResult : Option (AccumulatingOutput T size)}
    (haddr : flitAddress flitCount call.bufferIndex p tid = addr)
    (henqueue : o.buffer.enqueueOfThread call p tid = .ok (enqueueResult, s'))
    (hsingle : p.numElementsToFlush = 0 → tid = 0)
    (hstore : (flitOf enqueueResult).isSome = true → tid ≠ flitCount - 1 →
      addr < flitBufferDepth bufferCount flitCount)
    (houtput : 0 < p.numElementsToFlush → tid < flitCount ∧ p.threadCount ≤ flitCount ∧ 0 < size ∧
      (flitOf enqueueResult = none → addr < flitBufferDepth bufferCount flitCount)) :
    runThread unknown call p o tid = .ok {
      buffer := s'.storeResult addr tid (flitOf enqueueResult)
      callbacks := o.callbacks ++ if 0 < p.numElementsToFlush then
          [⟨tid, p.threadCount,
            (outputOf (s'.flitBuffer.read addr unknown) (flitOf enqueueResult)).1,
            (outputOf (s'.flitBuffer.read addr unknown) (flitOf enqueueResult)).2⟩]
        else []
      flitReads := o.flitReads ++ [addr] } := by
  have haccess := accessFlit_eq unknown (s := s') haddr hsingle hstore
  simp only [runThread, henqueue, ok_bind, haccess]
  by_cases hflush : 0 < p.numElementsToFlush
  · obtain ⟨htid, hthreads, hsize, hread⟩ := houtput hflush
    have hindex := le_two_pow_indexWidth flitCount
    have hcount := lt_two_pow_countWidth flitCount
    have hchoose : chooseFlit bufferCount flitCount addr (s'.flitBuffer.read addr unknown)
        (flitOf enqueueResult) =
          .ok (outputOf (s'.flitBuffer.read addr unknown) (flitOf enqueueResult)) := by
      cases hflit : flitOf enqueueResult with
      | some out => rfl
      | none =>
          rw [chooseFlit, assert_of_true (decide_eq_true (hread hflit))]
          rfl
    have hpos : decide ((outputOf (s'.flitBuffer.read addr unknown) (flitOf enqueueResult)).2 > 0)
        = true := by
      refine decide_eq_true ?_
      cases hflit : flitOf enqueueResult with
      | some out => exact of_decide_eq_true (Option.filter_eq_some_iff.mp hflit).2
      | none => exact hsize
    have htid : decide (tid < 2 ^ indexWidth flitCount) = true := decide_eq_true (by omega)
    have hthreads : decide (p.threadCount < 2 ^ countWidth flitCount) = true :=
      decide_eq_true (by omega)
    simp only [outputFlit, hchoose, ok_bind, assert_of_true hpos, assert_of_true htid,
      assert_of_true hthreads, if_pos hflush, pure_eq_ok]
  · simp only [if_neg hflush, pure_eq_ok, List.append_nil]

end Threads

end MultiAccumulatingBuffer

end Kanagawa.Library
